import Yalantinglibs.Metric.Summary

/-!
# Quantiles of a summary

The entries that `stat` walks through are the observations of both slots, in the order of their
codes. So each quantile is read at the observation of its rank, and the sum is taken over all
observations. The sum lacks what is behind the last quantile where that begins with a number with
sign.

## Main definitions

* `entries` — what is walked through
* `Reached` — the last quantile is behind the numbers with sign

## Main results

* `stat_reports` — the count, the quantiles and the sum of a summary
-/

set_option autoImplicit false

namespace Yalantinglibs.Metric.Summary

/-! ### The entries of a slot -/

section Slot

variable {ut : UintType} {d : Data} {obs : List Observation} {slot : Bool}

theorem mem_stat {e : Entry} :
    e ∈ d.stat ↔ ∃ code < bucketSize, d.count code ≠ 0 ∧ e = (order code, d.count code) := by
  rw [Data.stat_eq, List.mem_filterMap]
  constructor
  · rintro ⟨code, hcode, he⟩
    obtain ⟨hcount, heq⟩ := Option.ite_none_right_eq_some.mp he
    exact ⟨code, mem_walkOrder.mp hcode, hcount, (Option.some.inj heq).symm⟩
  · rintro ⟨code, hcode, hcount, rfl⟩
    exact ⟨code, mem_walkOrder.mpr hcode, if_pos hcount⟩

theorem pairwise_stat (d : Data) : d.stat.Pairwise fun a b => a.1 < b.1 := by
  rw [Data.stat_eq, List.pairwise_filterMap]
  refine pairwise_walkOrder.imp ?_
  intro a b hab e he e' he'
  have heq := Option.some.inj (Option.ite_none_right_eq_some.mp he).2
  have heq' := Option.some.inj (Option.ite_none_right_eq_some.mp he').2
  rw [← heq, ← heq']
  exact hab

/-- The codes that a slot counts, each as often as it was observed. -/
def Data.codes (d : Data) : List ℕ :=
  walkOrder.flatMap fun code => List.replicate (d.count code) code

theorem flt_order {code : ℕ} (h : code < bucketSize) (n : ℕ) :
    Entry.flt (order code, n) = decode code := by
  rw [Entry.flt, getRawIndex_order h, Int.toNat_natCast]

theorem flts_stat (d : Data) : flts d.stat = d.codes.map decode := by
  have hentry : ∀ codes : List ℕ, (∀ code ∈ codes, code < bucketSize) →
      flts (codes.filterMap d.entryOf) =
        (codes.flatMap fun code => List.replicate (d.count code) code).map decode := by
    intro codes hcodes
    induction codes with
    | nil => rfl
    | cons code codes ih =>
      have hrec := ih fun c hc => hcodes c (List.mem_cons_of_mem _ hc)
      rw [List.flatMap_cons, List.map_append, ← hrec, List.map_replicate, List.filterMap_cons]
      by_cases hcount : d.count code = 0
      · rw [Data.entryOf, if_neg (not_not.mpr hcount), hcount]
        rfl
      · rw [Data.entryOf, if_pos hcount, ← flt_order (hcodes code List.mem_cons_self)]
        rfl
  rw [Data.stat_eq]
  exact hentry walkOrder fun code hcode => mem_walkOrder.mp hcode

theorem count_codes {code : ℕ} (h : code < bucketSize) : d.codes.count code = d.count code := by
  have hcells : ∀ codes : List ℕ, codes.Nodup →
      (codes.flatMap fun c => List.replicate (d.count c) c).count code =
        if code ∈ codes then d.count code else 0 := by
    intro codes hnodup
    induction codes with
    | nil => rfl
    | cons c codes ih =>
      rw [List.nodup_cons] at hnodup
      rw [List.flatMap_cons, List.count_append, List.count_replicate, ih hnodup.2]
      by_cases heq : c = code
      · subst heq
        rw [if_pos (beq_self_eq_true c), if_neg hnodup.1, if_pos List.mem_cons_self, Nat.add_zero]
      · have hne : ¬(c == code) = true := by simpa using heq
        rw [if_neg hne, Nat.zero_add]
        simp only [List.mem_cons, Ne.symm heq, false_or]
  rw [Data.codes, hcells _ nodup_walkOrder, if_pos (mem_walkOrder.mpr h)]

theorem lt_of_mem_codes {code : ℕ} (h : code ∈ d.codes) : code < bucketSize := by
  obtain ⟨c, hc, hmem⟩ := List.mem_flatMap.mp h
  rw [List.eq_of_mem_replicate hmem]
  exact mem_walkOrder.mp hc

/-- The counters of a slot. -/
def State.slotData (s : State) (slot : Bool) : Data := (s.data slot).getD Data.empty

/-- The codes of a slot are those of its observations. -/
theorem codes_perm (hfits : Fits ut obs) (slot : Bool) :
    ((fill ut obs).slotData slot).codes.Perm
      ((obs.filter fun o => o.slot = slot).map fun o => encode o.flt) := by
  rw [List.perm_iff_count]
  intro code
  have hobs : ((obs.filter fun o => o.slot = slot).map fun o => encode o.flt).count code =
      obs.countP (Observation.isIn slot code) := by
    rw [List.count, List.countP_map, List.countP_filter]
    refine List.countP_congr fun o _ => ?_
    simp [Observation.isIn, and_comm]
  rw [hobs]
  by_cases hcode : code < bucketSize
  · rw [count_codes hcode]
    exact count_fill hfits slot code
  · rw [List.count_eq_zero.mpr fun h => hcode (lt_of_mem_codes h), eq_comm, List.countP_eq_zero]
    intro o _ ho
    have hin : o.slot = slot ∧ encode o.flt = code := of_decide_eq_true ho
    exact hcode (hin.2 ▸ encode_lt o.flt)

/-- What some of the entries count. -/
theorem total_filter_stat (hfits : Fits ut obs) (slot : Bool) (p : Entry → Bool) :
    total (((fill ut obs).slotData slot).stat.filter p) = obs.countP fun o => o.slot = slot ∧
      p (order (encode o.flt), obs.countP (Observation.isIn slot (encode o.flt))) = true := by
  have hsum : ∀ (d : Data) (codes : List ℕ), total ((codes.filterMap d.entryOf).filter p) =
      (codes.flatMap fun c => List.replicate (d.count c) c).countP
        fun c => p (order c, d.count c) := by
    intro d codes
    induction codes with
    | nil => rfl
    | cons c codes ih =>
      rw [List.flatMap_cons, List.countP_append, ← ih, List.countP_replicate, List.filterMap_cons]
      by_cases hcount : d.count c = 0
      · rw [Data.entryOf, if_neg (not_not.mpr hcount), hcount, ite_self, Nat.zero_add]
      · rw [Data.entryOf, if_pos hcount]
        by_cases hp : p (order c, d.count c) = true
        · rw [List.filter_cons_of_pos hp, total_cons, if_pos hp]
        · rw [List.filter_cons_of_neg hp, if_neg hp, Nat.zero_add]
  rw [Data.stat_eq, hsum, ← Data.codes, (codes_perm hfits slot).countP_eq, List.countP_map,
    List.countP_filter]
  apply List.countP_congr
  intro o _
  have hcount : ((fill ut obs).slotData slot).count (encode o.flt) =
      obs.countP (Observation.isIn slot (encode o.flt)) := count_fill hfits slot _
  simp [hcount, and_comm]

end Slot

/-! ### The entries of both slots -/

section Entries

variable {ut : UintType} {obs : List Observation} {s : State} {e : Entry}

/-- What is walked through. -/
def entries (s : State) : List Entry :=
  (s.slotData false).stat.merge (s.slotData true).stat Entry.le

theorem entries_perm (s : State) :
    (entries s).Perm ((s.slotData false).stat ++ (s.slotData true).stat) :=
  List.merge_perm_append _

theorem mem_entries : e ∈ entries s ↔ ∃ slot, e ∈ (s.slotData slot).stat := by
  rw [(entries_perm s).mem_iff, List.mem_append]
  constructor
  · rintro (h | h)
    · exact ⟨false, h⟩
    · exact ⟨true, h⟩
  · rintro ⟨slot, h⟩
    cases slot with
    | false => exact .inl h
    | true => exact .inr h

theorem exists_code_of_mem (h : e ∈ entries s) : ∃ code < bucketSize, e.1 = order code := by
  obtain ⟨slot, he⟩ := mem_entries.mp h
  obtain ⟨code, hcode, -, rfl⟩ := mem_stat.mp he
  exact ⟨code, hcode, rfl⟩

theorem fst_mem_range (h : e ∈ entries s) : -8192 ≤ e.1 ∧ e.1 < 8192 := by
  obtain ⟨code, hcode, heq⟩ := exists_code_of_mem h
  have hsize : bucketSize = 16384 := rfl
  rw [heq, order_eq hcode]
  rw [hsize] at hcode
  split <;> omega

theorem pairwise_le_stat (d : Data) : d.stat.Pairwise fun a b => a.le b = true := by
  refine (pairwise_stat d).imp ?_
  intro a b hab
  unfold Entry.le
  simp only [Bool.not_eq_true', decide_eq_false_iff_not]
  omega

theorem pairwise_entries (s : State) : (entries s).Pairwise fun a b => a.1 ≤ b.1 :=
  (List.pairwise_merge Entry.le_trans Entry.le_total _ _ (pairwise_le_stat _)
    (pairwise_le_stat _)).imp Entry.fst_le_of_le

/-- The observations of both slots, as floats of their codes. -/
theorem flts_entries_perm (hfits : Fits ut obs) :
    (flts (entries (fill ut obs))).Perm (obs.map fun o => decode (encode o.flt)) := by
  have hslot : ∀ slot, (flts ((fill ut obs).slotData slot).stat).Perm
      ((obs.filter fun o => o.slot = slot).map fun o => decode (encode o.flt)) := by
    intro slot
    rw [flts_stat]
    have h := (codes_perm hfits slot).map decode
    rwa [List.map_map] at h
  have hsplit : flts ((fill ut obs).slotData false).stat ++
      flts ((fill ut obs).slotData true).stat =
        flts (((fill ut obs).slotData false).stat ++ ((fill ut obs).slotData true).stat) :=
    List.flatMap_append.symm
  have hnot : (obs.filter fun o => o.slot = true) =
      obs.filter fun o => !decide (o.slot = false) := by
    refine List.filter_congr fun o _ => ?_
    cases o.slot <;> rfl
  refine ((entries_perm _).flatMap_right _).trans ?_
  refine (List.Perm.of_eq hsplit.symm).trans ?_
  refine ((hslot false).append (hslot true)).trans ?_
  rw [← List.map_append, hnot]
  exact (List.filter_append_perm _ obs).map _

theorem total_entries (hfits : Fits ut obs) : total (entries (fill ut obs)) = obs.length := by
  rw [← length_flts, (flts_entries_perm hfits).length_eq, List.length_map]

theorem weighted_eq (es : List Entry) : weighted es = ((flts es).map value).sum := by
  induction es with
  | nil => rfl
  | cons e es ih =>
    have hcons : flts (e :: es) = List.replicate e.2 e.flt ++ flts es := rfl
    rw [weighted_cons, ih, hcons, List.map_append, List.sum_append, List.map_replicate,
      List.sum_replicate, nsmul_eq_mul, mul_comm (value e.flt)]

theorem weighted_entries (hfits : Fits ut obs) :
    weighted (entries (fill ut obs)) = (obs.map fun o => value (decode (encode o.flt))).sum := by
  rw [weighted_eq, ((flts_entries_perm hfits).map value).sum_eq, List.map_map]
  rfl

/-- What is walked through is in the order of the numbers that codes are read back as. -/
theorem pairwise_flts (s : State) :
    (flts (entries s)).Pairwise fun x y => value x ≤ value y := by
  have hmono : ∀ {a b : Entry}, a ∈ entries s → b ∈ entries s → a.1 ≤ b.1 →
      value a.flt ≤ value b.flt := by
    intro a b ha hb hab
    obtain ⟨c, hc, hca⟩ := exists_code_of_mem ha
    obtain ⟨d, hd, hdb⟩ := exists_code_of_mem hb
    rw [hca, hdb] at hab
    rw [Entry.flt, Entry.flt, hca, hdb, getRawIndex_order hc, getRawIndex_order hd]
    exact value_decode_mono hc hd hab
  rw [flts, List.pairwise_flatMap]
  refine ⟨fun e _ => List.pairwise_replicate.mpr (.inr le_rfl), ?_⟩
  refine List.Pairwise.imp_of_mem ?_ (pairwise_entries s)
  intro a b ha hb hab x hx y hy
  rw [List.eq_of_mem_replicate hx, List.eq_of_mem_replicate hy]
  exact hmono ha hb hab

/-- The observation of a rank, in any order of the observations that is the order of their numbers.
-/
theorem value_flts_getElem? (hfits : Fits ut obs) {sorted : List Flt}
    (hperm : sorted.Perm (obs.map Observation.flt))
    (hsorted : sorted.Pairwise fun x y => value x ≤ value y) (i : ℕ) :
    (flts (entries (fill ut obs)))[i]?.map value =
      sorted[i]?.map fun x => value (decode (encode x)) := by
  have heq : (flts (entries (fill ut obs))).map value =
      sorted.map fun x => value (decode (encode x)) := by
    have hread : ((flts (entries (fill ut obs))).map value).Pairwise (· ≤ ·) :=
      List.pairwise_map.mpr (pairwise_flts _)
    have hobserved : (sorted.map fun x => value (decode (encode x))).Pairwise (· ≤ ·) :=
      List.pairwise_map.mpr (hsorted.imp value_decode_encode_mono)
    refine List.Perm.eq_of_pairwise (fun a b _ _ hab hba => le_antisymm hab hba) hread hobserved ?_
    have h := (flts_entries_perm hfits).map value
    have h' := hperm.map fun x => value (decode (encode x))
    rw [List.map_map] at h h'
    exact h.trans h'.symm
  rw [← List.getElem?_map, heq, List.getElem?_map]

end Entries

/-! ### What is behind the last quantile -/

section Reached

variable {ut : UintType} {obs : List Observation} {qs : List ℚ}

/-- The observations that are counted before those with the code of `x` in its slot. Of two
counters with one code the smaller comes first, and the first slot's where they are equal. -/
def Observation.isBefore (obs : List Observation) (x y : Observation) : Bool :=
  order (encode y.flt) < order (encode x.flt) ∨
    encode y.flt = encode x.flt ∧ y.slot ≠ x.slot ∧
      if y.slot then
        obs.countP (isIn y.slot (encode y.flt)) < obs.countP (isIn x.slot (encode x.flt))
      else obs.countP (isIn y.slot (encode y.flt)) ≤ obs.countP (isIn x.slot (encode x.flt))

/-- A quantile reaches each counter of a number with sign. -/
def Reached (obs : List Observation) (qs : List ℚ) : Prop :=
  ∀ x ∈ obs, x.flt.msb = true → ∃ q ∈ qs, obs.countP (x.isBefore obs) < rank q obs.length

instance : DecidablePred (Reached obs) := fun qs => by
  unfold Reached
  infer_instance

theorem Entry.le_iff {a b : Entry} : a.le b = true ↔ a.1 < b.1 ∨ a.1 = b.1 ∧ a.2 ≤ b.2 := by
  unfold Entry.le
  simp only [Bool.not_eq_true', decide_eq_false_iff_not]
  omega

theorem countP_add_countP {α : Type*} {p q r t : α → Bool}
    (h : ∀ a, (p a).toNat + (q a).toNat = (r a).toNat + (t a).toNat) (l : List α) :
    l.countP p + l.countP q = l.countP r + l.countP t := by
  induction l with
  | nil => rfl
  | cons a l ih =>
    have hone : ∀ p : α → Bool, (a :: l).countP p = l.countP p + (p a).toNat := by
      intro p
      rw [List.countP_cons]
      cases p a <;> rfl
    rw [hone, hone, hone, hone]
    have := h a
    omega

/-- An entry that is not passed yet has no more before it than what is counted before it. Where
both slots have it, it is taken for that of the second. -/
theorem total_le_countP (hfits : Fits ut obs) {passed rest : List Entry} {x : Observation}
    {code : ℕ} (hx : encode x.flt = code)
    (hother : x.slot = false →
      obs.countP (Observation.isIn true code) ≠ obs.countP (Observation.isIn false code))
    (hsplit : entries (fill ut obs) =
      passed ++ (order code, obs.countP (Observation.isIn x.slot code)) :: rest) :
    total passed ≤ obs.countP (x.isBefore obs) := by
  have hcode : code < bucketSize := hx ▸ encode_lt x.flt
  obtain ⟨c, hc⟩ : ∃ c, obs.countP (Observation.isIn x.slot code) = c := ⟨_, rfl⟩
  rw [hc] at hsplit
  have hsorted : (entries (fill ut obs)).Pairwise fun a b => a.le b = true :=
    List.pairwise_merge Entry.le_trans Entry.le_total _ _ (pairwise_le_stat _) (pairwise_le_stat _)
  have hperm := (entries_perm (fill ut obs)).filter fun e => e.le (order code, c)
  rw [hsplit, List.pairwise_append] at hsorted
  rw [hsplit] at hperm
  have hbelow : ∀ e ∈ passed, e.le (order code, c) = true :=
    fun e he => hsorted.2.2 e he _ List.mem_cons_self
  have hself : Entry.le (order code, c) (order code, c) = true := by simp [Entry.le]
  -- the entries up to this one are among those of both slots that are not behind it
  have htotal : total passed + c ≤
      (obs.countP fun o => o.slot = false ∧ Entry.le (order (encode o.flt),
        obs.countP (Observation.isIn false (encode o.flt))) (order code, c) = true) +
      obs.countP fun o => o.slot = true ∧ Entry.le (order (encode o.flt),
        obs.countP (Observation.isIn true (encode o.flt))) (order code, c) = true := by
    rw [← total_filter_stat hfits false fun e => e.le (order code, c),
      ← total_filter_stat hfits true fun e => e.le (order code, c), ← total_append,
      ← List.filter_append]
    have hsum : total ((passed ++ (order code, c) :: rest).filter fun e => e.le (order code, c)) =
        total (((((fill ut obs).slotData false).stat) ++
          ((fill ut obs).slotData true).stat).filter fun e => e.le (order code, c)) :=
      (hperm.map Prod.snd).sum_eq
    have hcons : ∀ p : Entry → Bool, p (order code, c) = true →
        ((order code, c) :: rest).filter p = (order code, c) :: rest.filter p :=
      fun _ => List.filter_cons_of_pos
    rw [← hsum, List.filter_append, total_append, List.filter_eq_self.mpr hbelow,
      hcons (fun e : Entry => e.le (order code, c)) hself, total_cons, ← Nat.add_assoc]
    exact Nat.le_add_right _ _
  have hcells : obs.countP (x.isBefore obs) + obs.countP (Observation.isIn x.slot code) =
      (obs.countP fun o => o.slot = false ∧ Entry.le (order (encode o.flt),
        obs.countP (Observation.isIn false (encode o.flt))) (order code, c) = true) +
      obs.countP fun o => o.slot = true ∧ Entry.le (order (encode o.flt),
        obs.countP (Observation.isIn true (encode o.flt))) (order code, c) = true := by
    apply countP_add_countP
    intro y
    have hinj : order (encode y.flt) = order code ↔ encode y.flt = code :=
      ⟨order_injective (encode_lt _) hcode, fun h => h ▸ rfl⟩
    unfold Observation.isBefore
    simp only [Entry.le_iff, hx, hc, Observation.isIn]
    rcases lt_trichotomy (order (encode y.flt)) (order code) with hlt | heq | hgt
    · have hne : encode y.flt ≠ code := fun h => absurd (hinj.mpr h) (ne_of_lt hlt)
      cases hslot : y.slot <;> simp [hlt, hne]
    · have heq' := hinj.mp heq
      rw [heq']
      cases hslot : y.slot <;> cases hx' : x.slot <;> rw [hx'] at hc hother
      · simp [hc]
      · simp [hc]
      · have hless : obs.countP (Observation.isIn true code) < c ↔
            obs.countP (Observation.isIn true code) ≤ c :=
          ⟨le_of_lt, fun h => lt_of_le_of_ne h (hc ▸ hother rfl)⟩
        simp [hc, hless]
      · simp [hc]
    · have hne : encode y.flt ≠ code := fun h => absurd (hinj.mpr h) (ne_of_gt hgt)
      simp [not_lt.mpr hgt.le, hne, hgt.ne']
  omega

/-- What is left behind the quantiles does not begin with a number with sign. -/
theorem not_neg_of_reached (hfits : Fits ut obs) (hreached : Reached obs qs)
    {passed left : List Entry} (hsplit : entries (fill ut obs) = passed ++ left)
    (hranks : ∀ q ∈ qs, rank q obs.length ≤ total passed) : ¬∃ e ∈ left.head?, e.1 < 0 := by
  rintro ⟨e, he, hneg⟩
  obtain ⟨rest, rfl⟩ : ∃ rest, left = e :: rest := by
    cases left with
    | nil => cases he
    | cons d rest =>
      rw [List.head?_cons, Option.mem_some_iff] at he
      exact ⟨rest, by rw [he]⟩
  have hmem : e ∈ entries (fill ut obs) := by
    rw [hsplit]
    simp
  obtain ⟨slot, hslot⟩ := mem_entries.mp hmem
  obtain ⟨code, hcode, hcount, rfl⟩ := mem_stat.mp hslot
  have hobs : ((fill ut obs).slotData slot).count code =
      obs.countP (Observation.isIn slot code) := count_fill hfits slot code
  rw [hobs] at hcount hsplit
  obtain ⟨slot', heq, hother⟩ : ∃ slot',
      obs.countP (Observation.isIn slot code) = obs.countP (Observation.isIn slot' code) ∧
        (slot' = false → obs.countP (Observation.isIn true code) ≠
          obs.countP (Observation.isIn false code)) := by
    by_cases hboth : obs.countP (Observation.isIn slot code) =
        obs.countP (Observation.isIn true code)
    · exact ⟨true, hboth, nofun⟩
    · cases slot with
      | true => exact absurd rfl hboth
      | false => exact ⟨false, rfl, fun _ h => hboth h.symm⟩
  rw [heq] at hcount hsplit
  obtain ⟨x, hx, hin⟩ := List.countP_pos_iff.mp (Nat.pos_of_ne_zero hcount)
  obtain ⟨rfl, hx'⟩ : x.slot = slot' ∧ encode x.flt = code := of_decide_eq_true hin
  have hsign : x.flt.msb = true := by
    rw [← order_encode_neg_iff, hx']
    exact hneg
  obtain ⟨q, hq, hlt⟩ := hreached x hx hsign
  have hle := total_le_countP hfits hx' hother hsplit
  have := hranks q hq
  omega

end Reached

/-! ### What a summary reports -/

section Stat

variable {ut : UintType} {obs : List Observation} {qs : List ℚ}

theorem elim_stat (s : State) (slot : Bool) :
    (s.data slot).elim [] Data.stat = (s.slotData slot).stat := by
  unfold State.slotData
  cases s.data slot with
  | none =>
    symm
    apply List.eq_nil_iff_forall_not_mem.mpr
    intro e he
    obtain ⟨code, -, hcount, -⟩ := mem_stat.mp he
    exact hcount rfl
  | some d => rfl

/-- Where nothing is counted, all quantiles are 0. -/
theorem stat_of_total_eq_zero {s : State} (h : total (entries s) = 0) (now : ℕ)
    (rate : List (Option ℚ)) : s.stat 0 now rate = some (0, 0, rate.map fun _ => 0) := by
  have htotal : ((s.slotData false).stat.map Prod.snd).sum +
      ((s.slotData true).stat.map Prod.snd).sum = total (entries s) := by
    have := ((entries_perm s).map Prod.snd).sum_eq
    rw [List.map_append, List.sum_append] at this
    exact this.symm
  have hrefresh : s.refresh 0 now = s := if_pos rfl
  unfold State.stat
  dsimp only
  rw [hrefresh, elim_stat, elim_stat, htotal, h, if_pos rfl]

/-- The quantiles, and the sum up to the last one or to the end. -/
theorem stat_of_total_pos {s : State} (h : 0 < total (entries s)) (now : ℕ)
    (hsorted : qs.Pairwise (· ≤ ·)) (hrange : ∀ q ∈ qs, 0 ≤ q ∧ q ≤ 1) :
    ∃ result passed left, s.stat 0 now (qs.map some) =
        some (if ∃ e ∈ left.head?, e.1 < 0 then weighted passed else weighted (entries s),
          total (entries s), result) ∧
      entries s = passed ++ left ∧ (∀ q ∈ qs, rank q (total (entries s)) ≤ total passed) ∧
      result.map some = qs.map fun q => (flts (entries s))[rank q (total (entries s)) - 1]? := by
  have htotal : ((s.slotData false).stat.map Prod.snd).sum +
      ((s.slotData true).stat.map Prod.snd).sum = total (entries s) := by
    have := ((entries_perm s).map Prod.snd).sum_eq
    rw [List.map_append, List.sum_append] at this
    exact this.symm
  have hrefresh : s.refresh 0 now = s := if_pos rfl
  have hstart : Walk.At ⟨0, negFloat16Max, 0,
      DataCopy.init (s.slotData false).stat (s.slotData true).stat⟩ [] (entries s) := by
    refine ⟨merges_init fun e he => ?_, rfl, rfl, fun es e heq => ?_⟩
    · exact (fst_mem_range ((entries_perm s).mem_iff.mpr he)).2
    · exact absurd heq.symm (by simp)
  have hminimal : Minimal 0 [] := fun es e heq => absurd heq.symm (by simp)
  obtain ⟨result, w, passed, left, hrun, hw, hsplit, hranks, -, hresult⟩ :=
    quantiles_eq hstart hminimal (Nat.zero_le _) h hsorted hrange fun _ _ => Nat.zero_le _
  rw [List.nil_append] at hrun hsplit hranks hresult
  have hleft : ∀ e ∈ left, e ∈ entries s := by
    intro e he
    rw [← hsplit]
    exact List.mem_append_right _ he
  have hpairs : left.Pairwise fun a b => a.1 ≤ b.1 := by
    have := pairwise_entries s
    rw [← hsplit, List.pairwise_append] at this
    exact this.2.1
  have hfuel : left.length < w.copy.size + 1 := by
    rw [hw.merges.size_eq]
    exact Nat.lt_succ_self _
  have hrest : sumRest (w.copy.size + 1) w.copy w.sum =
      some (if ∃ e ∈ left.head?, e.1 < 0 then w.sum else w.sum + weighted left) :=
    sumRest_eq hw.merges (fun e he => fst_mem_range (hleft e he)) hpairs hfuel
  refine ⟨result, passed, left, ?_, hsplit.symm, hranks, hresult⟩
  unfold State.stat
  dsimp only
  rw [hrefresh, elim_stat, elim_stat, htotal, if_neg (Nat.ne_of_gt h), hrun, Option.bind_some]
  dsimp only
  rw [hrest, hw.sum, ← weighted_append, hsplit]
  rfl

/-- The code keeps the order of numbers that are not too small, and each number but for a part of
it. -/
def Encodes : Prop :=
  (∀ x y : Flt, value x ≤ value y →
    2⁻¹ ^ 62 ≤ |value x| ∨ 2⁻¹ ^ 62 ≤ |value y| ∨ (x.msb = true ∧ y.msb = false) →
    order (encode x) ≤ order (encode y)) ∧
  (∀ x y : Flt, value x ≤ value y → value (decode (encode x)) ≤ value (decode (encode y))) ∧
  (∀ x : Flt, 2⁻¹ ^ 62 ≤ |value x| → |value x| < 2 ^ 64 →
    |value (decode (encode x)) - value x| ≤ 2⁻¹ ^ 6 * |value x|) ∧
  (∀ x : Flt, |value x| < 2⁻¹ ^ 62 → value (decode (encode x)) = 0) ∧
  ∀ x : Flt, 2 ^ 64 ≤ |value x| →
    value (decode (encode x)) = (if x.msb then -1 else 1) * 2 ^ 64

/-- A summary reports the number of observations, each quantile as the observation of its rank is
read back, and the sum of what the observations are read back as where the numbers with sign are
reached. -/
theorem stat_reports (ut : UintType) (obs : List Observation) (hfits : Fits ut obs) (now : ℕ)
    (qs : List ℚ) (hsorted : qs.Pairwise (· ≤ ·)) (hrange : ∀ q ∈ qs, 0 ≤ q ∧ q ≤ 1) :
    Encodes ∧ ∃ sum result,
      (fill ut obs).stat 0 now (qs.map some) = some (sum, obs.length, result) ∧
      result.length = qs.length ∧
      (∀ sorted : List Flt, sorted.Perm (obs.map Observation.flt) →
        sorted.Pairwise (fun x y => value x ≤ value y) →
        ∀ (i : ℕ) (q : ℚ) (x : Flt), qs[i]? = some q → sorted[rank q obs.length - 1]? = some x →
          ∃ r, result[i]? = some r ∧ value r = value (decode (encode x))) ∧
      (Reached obs qs → sum = (obs.map fun o => value (decode (encode o.flt))).sum) := by
  have hencodes : Encodes := ⟨fun _ _ => order_encode_le, fun _ _ => value_decode_encode_mono,
    fun _ => abs_value_decode_encode_sub_le, fun _ => value_decode_encode_of_lt,
    fun _ => value_decode_encode_of_le⟩
  refine ⟨hencodes, ?_⟩
  have htotal := total_entries hfits
  rcases Nat.eq_zero_or_pos obs.length with hzero | hpos
  · have hnil : obs = [] := List.length_eq_zero_iff.mp hzero
    have hstat := stat_of_total_eq_zero (htotal.trans hzero) now (qs.map some)
    rw [List.map_map] at hstat
    refine ⟨0, _, hstat.trans (by rw [hzero]), List.length_map _, ?_, ?_⟩
    · intro sorted hperm _ i q x _ hx
      rw [hnil, List.map_nil, List.perm_nil] at hperm
      rw [hperm] at hx
      cases hx
    · intro _
      rw [hnil]
      rfl
  · obtain ⟨result, passed, left, hstat, hsplit, hranks, hresult⟩ :=
      stat_of_total_pos (s := fill ut obs) (htotal ▸ hpos) now hsorted hrange
    rw [htotal] at hstat hranks hresult
    refine ⟨_, result, hstat, ?_, ?_, ?_⟩
    · have := congrArg List.length hresult
      rwa [List.length_map, List.length_map] at this
    · intro sorted hperm hpairs i q x hq hx
      have hread := congrArg (fun l => l[i]?) hresult
      simp only [List.getElem?_map, hq, Option.map_some] at hread
      obtain ⟨r, hr, hflt⟩ := Option.map_eq_some_iff.mp hread
      have hvalue := value_flts_getElem? hfits hperm hpairs (rank q obs.length - 1)
      rw [← hflt, hx, Option.map_some, Option.map_some] at hvalue
      exact ⟨r, hr, Option.some.inj hvalue⟩
    · intro hreached
      rw [if_neg (not_neg_of_reached hfits hreached hsplit hranks), weighted_entries hfits]

/-- Three times -1, 1.5 and no number; -1 and -2 in the other slot. -/
def someObs : List Observation :=
  [⟨0, false, 0xBF800000⟩, ⟨0, false, 0xBF800000⟩, ⟨0, false, 0xBF800000⟩, ⟨0, false, 0x3FC00000⟩,
    ⟨0, false, 0x7FC00000⟩, ⟨0, true, 0xBF800000⟩, ⟨0, true, 0xC0000000⟩]

/-- The quantile 3/7 reaches the counter of the three, as that of the other slot comes first. -/
theorem stat_reports_seven : Encodes ∧ ∃ sum result,
    (fill .uint64 someObs).stat 0 0 (([0, 3 / 7] : List ℚ).map some) = some (sum, 7, result) ∧
      result.length = 2 ∧
      (∃ r, result[0]? = some r ∧ value r = value (decode (encode 0xC0000000))) ∧
      (∃ r, result[1]? = some r ∧ value r = value (decode (encode 0xBF800000))) ∧
      sum = (someObs.map fun o => value (decode (encode o.flt))).sum := by
  obtain ⟨hencodes, sum, result, hstat, hlength, hranks, hsum⟩ :=
    stat_reports .uint64 someObs nofun 0 [0, 3 / 7] (by decide +kernel) (by decide +kernel)
  have hsorted := hranks [0xC0000000, 0xBF800000, 0xBF800000, 0xBF800000, 0xBF800000, 0x3FC00000,
    0x7FC00000] (by decide +kernel) (by decide +kernel)
  exact ⟨hencodes, sum, result, hstat, hlength, hsorted 0 0 _ rfl (by decide +kernel),
    hsorted 1 (3 / 7) _ rfl (by decide +kernel), hsum (by decide +kernel)⟩

/-- The codes of `2 ^ -127` and `2 ^ -126` are in the other order. Of the observations -1 and -2
only the one at the quantile 1/2 is in the sum. -/
theorem not_stat_reports :
    (∃ x y : Flt, value x ≤ value y ∧ ¬order (encode x) ≤ order (encode y)) ∧
    ∃ (obs : List Observation) (sum : ℚ) (result : List Flt),
      (fill .uint64 obs).stat 0 0 [some (1 / 2)] = some (sum, obs.length, result) ∧
        sum ≠ (obs.map fun o => value (decode (encode o.flt))).sum := by
  refine ⟨⟨0x00400000, 0x00800000, by decide +kernel, by decide +kernel⟩, ?_⟩
  exact ⟨[⟨0, false, 0xBF800000⟩, ⟨0, false, 0xC0000000⟩], -2, [0xC0000000], by decide +kernel,
    by decide +kernel⟩

end Stat

end Yalantinglibs.Metric.Summary
