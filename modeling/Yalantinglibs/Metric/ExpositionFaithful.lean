import Mathlib.Algebra.BigOperators.Group.Finset.Basic
import Mathlib.Data.List.Nodup
import Yalantinglibs.Metric.Exposition

/-!
# Where the exposition is faithful

The lines that a metric writes are compared with the samples that it stands for, kind by kind. A
block of lines belongs to each series of a histogram or a summary, and blocks of different series
have no line in common.

## Main definitions

* `blockKeys` — the names and labels of such a block

## Main results

* `nodup_series` — the lines are told apart if and only if the thresholds are printed differently
* `exposes_iff` — a metric is exposed exactly where it is `Exposable`
-/

set_option autoImplicit false

namespace Yalantinglibs.Metric.Exposition

open ExpositionText

/-! ### Series are told apart -/

/-- The names and labels of the lines of a histogram or a summary for some labels. -/
def blockKeys (front name key : Bytes) (labels : List (Bytes × Bytes)) (texts : List Bytes) :
    List (Bytes × List (Bytes × Bytes)) :=
  texts.map (fun threshold => (front, labels ++ [(key, threshold)])) ++
    [(name ++ ascii "_sum", labels), (name ++ ascii "_count", labels)]

variable {front name key : Bytes} {labels labels' : List (Bytes × Bytes)}
  {texts texts' : List Bytes}

theorem nodup_blockKeys : (blockKeys front name key labels texts).Nodup ↔ texts.Nodup := by
  have htotals : [(name ++ ascii "_sum", labels), (name ++ ascii "_count", labels)].Nodup := by
    have hne : ascii "_sum" ≠ ascii "_count" := by decide
    simp [hne]
  have hinj : Function.Injective fun threshold => (front, labels ++ [(key, threshold)]) := by
    intro a b hab
    simpa using hab
  -- a threshold has one label more than a total
  have hdisjoint : List.Disjoint (texts.map fun threshold => (front, labels ++ [(key, threshold)]))
      [(name ++ ascii "_sum", labels), (name ++ ascii "_count", labels)] := by
    intro k hk hk'
    obtain ⟨threshold, -, rfl⟩ := List.mem_map.mp hk
    simp at hk'
  rw [blockKeys, List.nodup_append', List.nodup_map_iff hinj]
  exact ⟨fun h => h.1, fun h => ⟨h, htotals, hdisjoint⟩⟩

theorem disjoint_blockKeys (hlen : labels.length = labels'.length) (hne : labels ≠ labels') :
    List.Disjoint (blockKeys front name key labels texts)
      (blockKeys front name key labels' texts') := by
  intro k hk hk'
  rcases List.mem_append.mp hk with hk | hk <;> rcases List.mem_append.mp hk' with hk' | hk'
  · obtain ⟨a, -, rfl⟩ := List.mem_map.mp hk
    obtain ⟨b, -, hb⟩ := List.mem_map.mp hk'
    exact hne (List.append_inj_left' (Prod.mk.inj hb).2.symm rfl)
  · obtain ⟨a, -, rfl⟩ := List.mem_map.mp hk
    have hlabels : labels ++ [(key, a)] = labels' := by
      simp only [List.mem_cons, List.not_mem_nil, or_false, Prod.mk.injEq] at hk'
      exact hk'.elim And.right And.right
    have hlength := congrArg List.length hlabels
    rw [List.length_append, List.length_singleton] at hlength
    omega
  · obtain ⟨b, -, rfl⟩ := List.mem_map.mp hk'
    have hlabels : labels' ++ [(key, b)] = labels := by
      simp only [List.mem_cons, List.not_mem_nil, or_false, Prod.mk.injEq] at hk
      exact hk.elim And.right And.right
    have hlength := congrArg List.length hlabels
    rw [List.length_append, List.length_singleton] at hlength
    omega
  · simp only [List.mem_cons, List.not_mem_nil, or_false] at hk hk'
    have hlabels : k.2 = labels := hk.elim (fun h => congrArg Prod.snd h) fun h =>
        congrArg Prod.snd h
    have hlabels' : k.2 = labels' :=
      hk'.elim (fun h => congrArg Prod.snd h) fun h => congrArg Prod.snd h
    exact hne (hlabels.symm.trans hlabels')

theorem map_fst_cumulative (count : ℤ) (l : List (ℤ × Bytes)) :
    (cumulative count l).map Prod.fst = l.map Prod.snd := by
  induction l generalizing count with
  | nil => rfl
  | cons e l ih =>
    obtain ⟨counter, le⟩ := e
    rw [cumulative, List.map_cons, List.map_cons, ih]

theorem keys_histogramSamples {boundaries : List Number} {counts : List ℤ} (valueType : ValueType)
    (sum : Number) (hlen : counts.length = boundaries.length + 1) :
    (histogramSamples valueType name labels boundaries counts sum).map
        (fun s => (s.name, s.labels)) =
      blockKeys (name ++ ascii "_bucket") name (ascii "le") labels (leTexts boundaries) := by
  have hles : (leTexts boundaries).length ≤ counts.length := by
    rw [hlen, leTexts, List.length_append, List.length_map]
    exact le_rfl
  have htexts : leTexts boundaries =
      (cumulative 0 (counts.zip (leTexts boundaries))).map Prod.fst := by
    rw [map_fst_cumulative, List.map_snd_zip hles]
  rw [histogramSamples, blockKeys, List.map_append, thresholdSamples, bucketLines, List.map_map,
    List.map_map]
  conv_rhs => rw [htexts, List.map_map]
  rfl

theorem keys_summarySamples {quantiles rates : List Number} (sum : Number) (count : ℕ)
    (hlen : quantiles.length ≤ rates.length) :
    (summarySamples name labels quantiles rates sum count).map (fun s => (s.name, s.labels)) =
      blockKeys name name (ascii "quantile") labels (quantiles.map Number.toString) := by
  have hquantiles : quantiles = (quantiles.zip rates).map Prod.fst := by
    rw [List.map_fst_zip hlen]
  rw [summarySamples, blockKeys, List.map_append, thresholdSamples, quantileLines, List.map_map,
    List.map_map]
  conv_rhs => rw [hquantiles, List.map_map, List.map_map]
  rfl

theorem nodup_leTexts {boundaries : List Number} :
    (leTexts boundaries).Nodup ↔ (boundaries.map Number.toString).Nodup := by
  have hdisjoint : List.Disjoint (boundaries.map Number.toString) [ascii "+Inf"] := by
    intro le hle hinf
    obtain ⟨n, -, rfl⟩ := List.mem_map.mp hle
    exact n.toString_ne_plusInf (List.mem_singleton.mp hinf)
  rw [leTexts, List.nodup_append']
  exact ⟨fun h => h.1, fun h => ⟨h, List.nodup_singleton _, hdisjoint⟩⟩

section Dynamic

variable {V : Type*} (m : Dynamic V)

/-- All series have the same number of labels. -/
theorem length_labels {e : List Bytes × V} (he : e ∈ m.map) :
    (m.labels e.1).length = m.static.length + m.labelsName.names.length := by
  rw [Dynamic.labels, List.length_append, List.length_zip, m.length_eq e he, min_self]

theorem labels_inj {e e' : List Bytes × V} (he : e ∈ m.map) (he' : e' ∈ m.map)
    (h : m.labels e.1 = m.labels e'.1) : e.1 = e'.1 := by
  have hzip := List.append_cancel_left h
  rw [← List.map_snd_zip (m.length_eq e he).le, hzip, List.map_snd_zip (m.length_eq e' he').le]

/-- Different series have different labels. -/
theorem pairwise_labels : m.map.Pairwise fun e e' => m.labels e.1 ≠ m.labels e'.1 := by
  have hpairwise := List.pairwise_map.mp m.nodup
  refine hpairwise.imp_of_mem fun he he' hne heq => hne ?_
  exact labels_inj m he he' heq

/-- The lines of the series are told apart if and only if those of each series are. -/
theorem nodup_series {f : List Bytes × V → List Sample} {texts : List Bytes}
    (hf : ∀ e ∈ m.map, f e = [] ∨ (f e).map (fun s => (s.name, s.labels)) =
      blockKeys front name key (m.labels e.1) texts) :
    ((m.map.flatMap f).map fun s => (s.name, s.labels)).Nodup ↔
      (m.map.flatMap f ≠ [] → texts.Nodup) := by
  rw [List.map_flatMap, List.nodup_flatMap]
  constructor
  · rintro ⟨hnodup, -⟩ hne
    obtain ⟨s, hs⟩ := List.exists_mem_of_ne_nil _ hne
    obtain ⟨e, he, hmem⟩ := List.mem_flatMap.mp hs
    rcases hf e he with hnil | hkeys
    · exact absurd hmem (hnil ▸ List.not_mem_nil)
    · have hseries := hnodup e he
      rw [hkeys] at hseries
      exact nodup_blockKeys.mp hseries
  · intro h
    constructor
    · intro e he
      rcases hf e he with hnil | hkeys
      · rw [hnil]
        exact List.nodup_nil
      · rw [hkeys]
        refine nodup_blockKeys.mpr (h fun hnil => ?_)
        rw [List.flatMap_eq_nil_iff.mp hnil e he] at hkeys
        exact absurd hkeys (by simp [blockKeys])
    · refine (pairwise_labels m).imp_of_mem fun {e e'} he he' hne => ?_
      rcases hf e he with hnil | hkeys
      · rw [Function.onFun, hnil]
        exact List.disjoint_nil_left _
      rcases hf e' he' with hnil' | hkeys'
      · rw [Function.onFun, hnil']
        exact List.disjoint_nil_right _
      rw [Function.onFun, hkeys, hkeys']
      exact disjoint_blockKeys ((length_labels m he).trans (length_labels m he').symm) hne

end Dynamic

/-! ### Lines as they should be written -/

theorem isWritten_thresholdSamples {lines : List (Bytes × Number)} (hkey : validLabelName key)
    (hlabels : ∀ label ∈ labels, validLabelName label.1) {w : Written}
    (hw : w ∈ (thresholdSamples front key labels lines).map (Written.mk [])) : IsWritten w := by
  obtain ⟨s, hs, rfl⟩ := List.mem_map.mp hw
  obtain ⟨⟨threshold, n⟩, -, rfl⟩ := List.mem_map.mp hs
  refine ⟨fun label hlabel => ?_, n.isToken_toString, rfl⟩
  rcases List.mem_append.mp hlabel with hlabel | hlabel
  · exact hlabels label hlabel
  · rw [List.mem_singleton.mp hlabel]
    exact hkey

theorem isWritten_totalSamples {gap : Bytes} {sum count : Number} (hgap : gap.all isBlank)
    (hlabels : ∀ label ∈ labels, validLabelName label.1) {w : Written}
    (hw : w ∈ (totalSamples name labels sum count).map (Written.mk gap)) : IsWritten w := by
  rw [totalSamples, List.map_cons, List.map_cons, List.map_nil, List.mem_cons,
    List.mem_singleton] at hw
  rcases hw with rfl | rfl
  · exact ⟨hlabels, sum.isToken_toString, hgap⟩
  · exact ⟨hlabels, count.isToken_toString, hgap⟩

/-- The names and the numbers of lines do not depend on their labels and blanks. -/
theorem map_totalSamples (gap : Bytes) (sum count : Number) :
    ((totalSamples name labels sum count).map (Written.mk gap)).map
        (fun w => (w.sample.name, w.sample.value)) =
      (totalSamples name labels' sum count).map fun s => (s.name, s.value) := rfl

namespace AnyMetric

variable {m : AnyMetric} {ws : List Written}

/-- What has to be shown of the lines of a metric that is written. -/
theorem exposes_iff_of_serialize (hconstructed : m.Constructed)
    (hserialize : ∀ str, m.serialize str = some (str ++ textOf m.printed ws))
    (hws : ∀ w ∈ ws, IsWritten w)
    (hsamples : ws.map (fun w => (w.sample.name, w.sample.value)) =
      m.samples.map fun s => (s.name, s.value))
    (hlabelled : m.samples = ws.map Written.sample ↔ (m.samples ≠ [] → m.Labelled))
    (hnodup : (m.samples.map fun s => (s.name, s.labels)).Nodup ↔
      (m.samples ≠ [] → (m.thresholds.map Number.toString).Nodup)) :
    m.Exposes ↔ m.Exposable := by
  have hparse := @parseText_textOf_iff m.printed ws m.samples hws hsamples
  constructor
  · rintro ⟨text, htext, hread, hkeys⟩
    have heq : text = textOf m.printed ws := by
      have h := (hserialize []).symm.trans (htext [])
      exact (Option.some_inj.mp h).symm
    rw [heq] at hread
    obtain ⟨hquiet, hwell, hlines⟩ := hparse.mp hread
    exact ⟨hconstructed, hquiet, hwell, hlabelled.mp hlines, hnodup.mp hkeys⟩
  · intro h
    exact ⟨_, hserialize, hparse.mpr ⟨h.quiet, h.wellFormed, hlabelled.mpr h.labelled⟩,
      hnodup.mpr h.thresholds⟩

theorem not_exposes_of_serialize (h : ∀ str, m.serialize str = none) : ¬ m.Exposes := by
  rintro ⟨text, htext, -⟩
  have hnone := (h []).symm.trans (htext [])
  cases hnone

theorem exposes_staticCounter_iff (m : StaticCounter) :
    (staticCounter m).Exposes ↔ (staticCounter m).Exposable := by
  refine exposes_iff_of_serialize trivial m.serialize_eq ?_ ?_ ?_ ?_
  · intro w hw
    obtain ⟨s, hs, rfl⟩ := List.mem_map.mp hw
    rw [samples] at hs
    split_ifs at hs
    · exact absurd hs List.not_mem_nil
    · rw [List.mem_singleton.mp hs]
      exact ⟨m.labels.valid, m.value.isToken_toString, rfl⟩
  · rw [List.map_map]
    rfl
  · rw [List.map_map]
    exact iff_of_true (List.map_id _).symm fun _ => trivial
  · rw [samples]
    split_ifs
    · exact iff_of_true List.nodup_nil fun h => absurd rfl h
    · exact iff_of_true (List.nodup_singleton _) fun _ => List.nodup_nil

theorem exposes_dynamicCounter_iff (m : DynamicCounter) :
    (dynamicCounter m).Exposes ↔ (dynamicCounter m).Exposable := by
  by_cases hconstructed : (dynamicCounter m).Constructed
  · refine exposes_iff_of_serialize hconstructed (DynamicCounter.serialize_eq m hconstructed)
      ?_ ?_ ?_ ?_
    · intro w hw
      obtain ⟨e, -, rfl⟩ := List.mem_map.mp hw
      refine ⟨fun label hlabel => ?_, e.2.isToken_toString, rfl⟩
      dsimp only at hlabel
      split_ifs at hlabel
      · exact absurd hlabel List.not_mem_nil
      · exact validLabelName_of_mem_labels m hlabel
    · rw [DynamicCounter.written, samples, List.map_map, List.map_map]
      rfl
    · rw [DynamicCounter.written, samples, List.map_map, List.map_inj_left]
      by_cases hnames : m.labelsName.names = []
      · constructor
        · intro h hne
          -- one series is enough to see whether there are static labels
          obtain ⟨s, hs⟩ := List.exists_mem_of_ne_nil _ hne
          obtain ⟨e, he, -⟩ := List.mem_map.mp hs
          have hlabels := congrArg Sample.labels (h e he)
          simp only [Function.comp_apply, Dynamic.labels, hnames, List.zip_nil_left,
            List.append_nil] at hlabels
          rw [Dynamic.static] at hlabels
          refine Or.inr ?_
          cases hstatic : m.staticLabels with
          | none => rfl
          | some labels =>
            rw [hstatic] at hlabels
            exact absurd hlabels (hconstructed labels hstatic)
        · intro h e he
          have hne : m.map.map (fun e => Sample.mk m.head.name (m.labels e.1) e.2.toString) ≠ [] :=
            fun hnil => absurd he (List.map_eq_nil_iff.mp hnil ▸ List.not_mem_nil)
          have hstatic : m.staticLabels = none := (h hne).resolve_left fun hn => hn hnames
          simp [Dynamic.labels, Dynamic.static, hstatic, hnames]
      · exact iff_of_true (fun e _ => by simp [hnames]) fun _ => Or.inl hnames
    · refine iff_of_true ?_ fun _ => List.nodup_nil
      rw [samples, List.map_map]
      refine List.Nodup.map_on (fun e he e' he' heq => ?_) (List.Nodup.of_map _ m.nodup)
      have hkey := labels_inj m he he' (Prod.mk.inj heq).2
      exact List.inj_on_of_nodup_map m.nodup he he' hkey
  · exact iff_of_false
      (not_exposes_of_serialize (DynamicCounter.serialize_eq_none m hconstructed))
      fun h => hconstructed h.constructed

theorem exposes_staticHistogram_iff (m : StaticHistogram) :
    (staticHistogram m).Exposes ↔ (staticHistogram m).Exposable := by
  refine exposes_iff_of_serialize trivial m.serialize_eq ?_ ?_ ?_ ?_
  · intro w hw
    rw [StaticHistogram.written] at hw
    split_ifs at hw
    · exact absurd hw List.not_mem_nil
    · rcases List.mem_append.mp hw with hw | hw
      · exact isWritten_thresholdSamples (by decide) m.labels.valid hw
      · exact isWritten_totalSamples rfl (fun _ h => absurd h List.not_mem_nil) hw
  · rw [StaticHistogram.written, samples]
    split_ifs
    · rfl
    · rw [histogramSamples, List.map_append, List.map_append, List.map_map, map_totalSamples]
      rfl
  · rw [StaticHistogram.written, samples]
    split_ifs
    · exact iff_of_true rfl fun h => absurd rfl h
    · rw [histogramSamples, List.map_append, List.map_map, List.map_map]
      have hid : ∀ gap, Written.sample ∘ Written.mk gap = id := fun _ => rfl
      rw [hid, List.map_id, List.map_id, List.append_cancel_left_eq]
      simp [totalSamples, Labelled]
  · rw [samples]
    split_ifs
    · exact iff_of_true List.nodup_nil fun h => absurd rfl h
    · rw [keys_histogramSamples _ _ m.length_eq, nodup_blockKeys, nodup_leTexts]
      refine ⟨fun h _ => h, fun h => h fun hnil => ?_⟩
      exact absurd hnil (by simp [histogramSamples, totalSamples])

theorem exposes_dynamicHistogram_iff (m : DynamicHistogramText) :
    (dynamicHistogram m).Exposes ↔ (dynamicHistogram m).Exposable := by
  have hsamples : (dynamicHistogram m).samples = m.written.map Written.sample := by
    rw [samples, DynamicHistogramText.written, List.map_flatMap]
    refine List.flatMap_congr fun e _ => ?_
    split_ifs
    · rfl
    · rw [List.map_map]
      exact (List.map_id _).symm
  by_cases hconstructed : (dynamicHistogram m).Constructed
  · by_cases hnames : m.written ≠ [] → m.labelsName.names ≠ []
    · refine exposes_iff_of_serialize hconstructed (m.serialize_eq hconstructed hnames) ?_ ?_ ?_ ?_
      · intro w hw
        obtain ⟨e, -, hw⟩ := List.mem_flatMap.mp hw
        split_ifs at hw
        · exact absurd hw List.not_mem_nil
        · rw [histogramSamples, List.map_append] at hw
          have hlabels : ∀ label ∈ m.labels e.1, validLabelName label.1 := fun _ hlabel =>
            validLabelName_of_mem_labels m.toDynamic hlabel
          rcases List.mem_append.mp hw with hw | hw
          · exact isWritten_thresholdSamples (by decide) hlabels hw
          · exact isWritten_totalSamples rfl hlabels hw
      · rw [hsamples, List.map_map]
        rfl
      · exact iff_of_true hsamples fun hne => hnames fun hnil => hne (by rw [hsamples, hnil]; rfl)
      · rw [← nodup_leTexts]
        have hkeys : ∀ e ∈ m.map, (if e.2.bucketCounts.sum = 0 then []
            else histogramSamples m.valueType m.head.name (m.labels e.1) m.bucketBoundaries
              e.2.bucketCounts e.2.sum) = [] ∨
            (if e.2.bucketCounts.sum = 0 then []
            else histogramSamples m.valueType m.head.name (m.labels e.1) m.bucketBoundaries
              e.2.bucketCounts e.2.sum).map (fun s => (s.name, s.labels)) =
              blockKeys (m.head.name ++ ascii "_bucket") m.head.name (ascii "le") (m.labels e.1)
                (leTexts m.bucketBoundaries) := by
          intro e he
          split_ifs
          · exact Or.inl rfl
          · exact Or.inr (keys_histogramSamples _ _ (m.bucketCounts_length e he))
        exact nodup_series m.toDynamic hkeys
    · push Not at hnames
      refine iff_of_false (not_exposes_of_serialize
        (m.serialize_eq_none hconstructed hnames.1 hnames.2)) fun h => ?_
      refine h.labelled (fun hnil => hnames.1 ?_) hnames.2
      rw [hsamples] at hnil
      exact List.map_eq_nil_iff.mp hnil
  · exact iff_of_false
      (not_exposes_of_serialize (m.serialize_eq_none_of_not_constructed hconstructed))
      fun h => hconstructed h.constructed

theorem exposes_staticSummary_iff (m : StaticSummary) :
    (staticSummary m).Exposes ↔ (staticSummary m).Exposable := by
  refine exposes_iff_of_serialize trivial m.serialize_eq ?_ ?_ ?_ ?_
  · intro w hw
    rw [StaticSummary.written] at hw
    split_ifs at hw
    · exact absurd hw List.not_mem_nil
    · exact absurd hw List.not_mem_nil
    · rcases List.mem_append.mp hw with hw | hw
      · exact isWritten_thresholdSamples (by decide) m.labels.valid hw
      · exact isWritten_totalSamples rfl (fun _ h => absurd h List.not_mem_nil) hw
  · rw [StaticSummary.written, samples]
    split_ifs
    · rfl
    · rfl
    · rw [summarySamples, List.map_append, List.map_append, List.map_map, map_totalSamples]
      rfl
  · rw [StaticSummary.written, samples]
    split_ifs
    · exact iff_of_true rfl fun h => absurd rfl h
    · exact iff_of_true rfl fun h => absurd rfl h
    · rw [summarySamples, List.map_append, List.map_map, List.map_map]
      have hid : ∀ gap, Written.sample ∘ Written.mk gap = id := fun _ => rfl
      rw [hid, List.map_id, List.map_id, List.append_cancel_left_eq]
      simp [totalSamples, Labelled]
  · rw [samples]
    split_ifs
    · exact iff_of_true List.nodup_nil fun h => absurd rfl h
    · exact iff_of_true List.nodup_nil fun h => absurd rfl h
    · rw [keys_summarySamples _ _ m.length_le, nodup_blockKeys]
      refine ⟨fun h _ => h, fun h => h fun hnil => ?_⟩
      exact absurd hnil (by simp [summarySamples, totalSamples])

theorem exposes_dynamicSummary_iff (m : DynamicSummary) :
    (dynamicSummary m).Exposes ↔ (dynamicSummary m).Exposable := by
  have hsamples : (dynamicSummary m).samples = m.written.map Written.sample := by
    rw [samples, DynamicSummary.written, List.map_flatMap]
    refine List.flatMap_congr fun e _ => ?_
    rw [List.map_append, List.map_map, List.map_map]
    have hid : ∀ gap, Written.sample ∘ Written.mk gap = id := fun _ => rfl
    rw [hid, hid, List.map_id, List.map_id]
    rfl
  by_cases hconstructed : (dynamicSummary m).Constructed
  · by_cases hnames : m.written ≠ [] → m.labelsName.names ≠ []
    · refine exposes_iff_of_serialize hconstructed (m.serialize_eq hconstructed hnames) ?_ ?_ ?_ ?_
      · intro w hw
        obtain ⟨e, -, hw⟩ := List.mem_flatMap.mp hw
        have hlabels : ∀ label ∈ m.labels e.1, validLabelName label.1 := fun _ hlabel =>
            validLabelName_of_mem_labels m.toDynamic hlabel
        rcases List.mem_append.mp hw with hw | hw
        · exact isWritten_thresholdSamples (by decide) hlabels hw
        · exact isWritten_totalSamples (by decide) hlabels hw
      · rw [hsamples, List.map_map]
        rfl
      · exact iff_of_true hsamples fun hne => hnames fun hnil => hne (by rw [hsamples, hnil]; rfl)
      · exact nodup_series m.toDynamic fun e he =>
          Or.inr (keys_summarySamples _ _ (m.length_le e he))
    · push Not at hnames
      refine iff_of_false (not_exposes_of_serialize
        (m.serialize_eq_none hconstructed hnames.1 hnames.2)) fun h => ?_
      refine h.labelled (fun hnil => hnames.1 ?_) hnames.2
      rw [hsamples] at hnil
      exact List.map_eq_nil_iff.mp hnil
  · exact iff_of_false
      (not_exposes_of_serialize (m.serialize_eq_none_of_not_constructed hconstructed))
      fun h => hconstructed h.constructed

/-- The text of a metric is faithful exactly where it has no labels to lose, is defined, and no line
of its head is taken for a sample. -/
theorem exposes_iff (m : AnyMetric) : m.Exposes ↔ m.Exposable := by
  cases m with
  | staticCounter m => exact exposes_staticCounter_iff m
  | dynamicCounter m => exact exposes_dynamicCounter_iff m
  | staticHistogram m => exact exposes_staticHistogram_iff m
  | dynamicHistogram m => exact exposes_dynamicHistogram_iff m
  | staticSummary m => exact exposes_staticSummary_iff m
  | dynamicSummary m => exact exposes_dynamicSummary_iff m

/-- A static histogram with a label: it is lost in the lines of the sum and the count. -/
def requestSizes : StaticHistogram where
  valueType := .int64
  head := ⟨.histogram, ascii "size", ascii "sizes"⟩
  labels := ⟨[(ascii "url", ascii "/")], by decide⟩
  bucketBoundaries := [.double 5]
  bucketCounts := [1, 0]
  sum := 3
  length_eq := rfl

example : requestSizes.serialize [] =
    some (ascii "# HELP size sizes\n# TYPE size histogram\n" ++
      ascii "size_bucket\x7burl=\"/\",le=\"5.000000\"\x7d 1\n" ++
      ascii "size_bucket\x7burl=\"/\",le=\"+Inf\"\x7d 1\nsize_sum 3\nsize_count 1\n") := by
  decide +kernel

theorem not_exposes_requestSizes : ¬ (staticHistogram requestSizes).Exposes := by
  intro h
  have hexposable := (exposes_staticHistogram_iff requestSizes).mp h
  have hne : (staticHistogram requestSizes).samples ≠ [] := by
    have hcount : ¬ (requestSizes.bucketCounts.all fun counter => counter = 0) := by decide
    rw [samples, if_neg hcount, histogramSamples, totalSamples]
    exact List.append_ne_nil_of_right_ne_nil _ (List.cons_ne_nil _ _)
  exact absurd (hexposable.labelled hne) (List.cons_ne_nil _ _)

end AnyMetric

end Yalantinglibs.Metric.Exposition
