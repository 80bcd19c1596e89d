import Mathlib.Algebra.BigOperators.Group.Finset.Basic
import Yalantinglibs.Data.TwoSlotWindow
import Yalantinglibs.Metric.SummaryIncrease
import Yalantinglibs.Metric.SummaryQuantiles

/-!
# The time window of a summary

`refresh` of `metric/summary_impl.hpp` empties the slots by the time since the last turn, in
milliseconds, for half the age that observations may have. Between the calls the counters of both
slots are those of a window of two slots. So `stat` counts the last observations of a run, all of
less than half the age and none of one and a half. Only an observation for which all counters of its
sign are full is not counted at all.

## Main definitions

* `Call`, `State.run` — calls of `insert` and `stat` one behind the other
* `counted` — the observations of a run that a counter was found for
* `Windowed` — what `stat` counts of them

## Main results

* `stat_windowed` — each `stat` of a run counts a window of the observations
* `not_stat_windowed` — observations that are not counted, and an age that is too long
-/

set_option autoImplicit false

namespace Yalantinglibs.Metric.Summary

open TwoSlotWindow NearestSearch

/-! ### Runs -/

def msPerSecond : ℕ := 1000

/-- `refresh_time_` of the constructor, in unsigned arithmetic. -/
def refreshTime (maxAge : ℕ) : ℕ := maxAge * msPerSecond % 2 ^ 64 / 2

/-- `insert` of an observation, or `stat`, and its time. -/
structure Call where
  now : ℕ
  flt : Option Flt

/-- What a call leaves; of `stat` that is a turn. -/
def State.call (ut : UintType) (refreshTime : ℕ) (s : State) (c : Call) : State :=
  match c.flt with
  | some flt => s.insert ut refreshTime c.now flt
  | none => s.refresh refreshTime c.now

/-- The constructor at the time `start`, and calls. -/
def State.run (ut : UintType) (maxAge start : ℕ) (calls : List Call) : State :=
  calls.foldl (State.call ut (refreshTime maxAge)) { tp := start }

/-- An observation, and the code whose counter is increased for it. -/
structure Record where
  flt : Flt
  code : ℕ

/-- What a call counts. -/
def State.records (ut : UintType) (refreshTime : ℕ) (s : State) (c : Call) : List Record :=
  match c.flt with
  | some flt =>
    let s := s.refresh refreshTime c.now
    ((s.slotData s.frontendDataIndex).target ut (encode flt)).toList.map fun code => ⟨flt, code⟩
  | none => []

/-- The calls of a run, with what they count. -/
def State.events (ut : UintType) (refreshTime : ℕ) :
    State → List Call → List (TwoSlotWindow.Call Record)
  | _, [] => []
  | s, c :: calls =>
    (c.now, s.records ut refreshTime c) :: (s.call ut refreshTime c).events ut refreshTime calls

/-- The observations of a run that a counter was found for, and their times. -/
def counted (ut : UintType) (maxAge start : ℕ) (calls : List Call) : List (ℕ × Record) :=
  history (State.events ut (refreshTime maxAge) { tp := start } calls)

/-! ### The counters of the slots are those of a window -/

section Mirrors

variable {ut : UintType} {refreshTime now : ℕ} {s : State} {w : Window Record} {d : Data}

/-- How often a code is among items. -/
def countOf (items : List (ℕ × Record)) (code : ℕ) : ℕ := items.countP fun a => a.2.code = code

/-- The counters of each slot count its items. -/
structure Mirrors (s : State) (w : Window Record) : Prop where
  tp : s.tp = w.tp
  front : ∀ code, s.count s.frontendDataIndex code = countOf w.front code
  back : ∀ code, s.count (!s.frontendDataIndex) code = countOf w.back code
  lt : ∀ a ∈ w.kept, a.2.code < bucketSize

theorem count_refresh (d : Data) (code : ℕ) : d.refresh.count code = 0 := by
  unfold Data.count Data.refresh
  cases d (code / pieceSize) with
  | none => rfl
  | some piece => rfl

/-- The counters of a slot that is emptied, also where it was not made yet. -/
theorem count_map_refresh (d : Option Data) (code : ℕ) :
    ((d.map Data.refresh).getD Data.empty).count code = 0 := by
  cases d with
  | none => rfl
  | some d => exact count_refresh d code

theorem Mirrors.start (now : ℕ) : Mirrors { tp := now } ⟨now, [], []⟩ :=
  ⟨rfl, fun _ => rfl, fun _ => rfl, fun _ h => absurd h List.not_mem_nil⟩

/-- A turn is one of the window, whose period is in ticks. -/
theorem Mirrors.refresh (h : Mirrors s w) (hpos : 0 < refreshTime) (now : ℕ) :
    Mirrors (s.refresh refreshTime now) (w.refresh (refreshTime * msCount) now) := by
  have hcount : 0 < msCount := by decide
  have hone : refreshTime ≤ (now - s.tp) / msCount ↔ refreshTime * msCount ≤ now - w.tp := by
    rw [Nat.le_div_iff_mul_le hcount, h.tp]
  have htwo : 2 * refreshTime ≤ (now - s.tp) / msCount ↔
      2 * (refreshTime * msCount) ≤ now - w.tp := by
    rw [Nat.le_div_iff_mul_le hcount, h.tp, Nat.mul_assoc]
  unfold State.refresh Window.refresh
  rw [if_neg (Nat.ne_of_gt hpos)]
  simp only [hone, htwo]
  by_cases hle : refreshTime * msCount ≤ now - w.tp
  · rw [if_pos hle, if_pos hle]
    by_cases hle' : 2 * (refreshTime * msCount) ≤ now - w.tp
    · rw [if_pos hle', if_pos hle']
      exact ⟨rfl, fun code => count_map_refresh _ code, fun code => count_map_refresh _ code,
        fun _ h => absurd h List.not_mem_nil⟩
    · rw [if_neg hle', if_neg hle']
      refine ⟨rfl, fun code => ?_, fun code => ?_, fun a ha => ?_⟩
      · unfold State.count
        dsimp only
        rw [Function.update_self]
        exact count_map_refresh _ code
      · have hne : s.frontendDataIndex ≠ !s.frontendDataIndex := by
          cases s.frontendDataIndex <;> decide
        unfold State.count
        dsimp only
        rw [Bool.not_not, Function.update_of_ne hne]
        exact h.front code
      · rw [Window.kept, List.append_nil] at ha
        exact h.lt a (List.mem_append_right _ ha)
  · rw [if_neg hle, if_neg hle]
    exact h

theorem target_lt {pos i : ℕ} (hpos : pos < bucketSize) (h : d.target ut pos = some i) :
    lowerOf pos ≤ i ∧ i < upperOf pos := by
  cases ut with
  | uint64 =>
    obtain rfl := Option.some.inj h
    exact half_of_lt hpos
  | uint32 =>
    unfold Data.target at h
    exact ((find?_candidates_eq_some_iff (half_of_lt hpos)).mp h).mem

theorem countOf_append (items items' : List (ℕ × Record)) (code : ℕ) :
    countOf (items ++ items') code = countOf items code + countOf items' code :=
  List.countP_append

/-- What an observation adds to the counters. -/
theorem count_increase (ut : UintType) (d : Data) (flt : Flt) (now code : ℕ) :
    (d.increase ut (encode flt)).count code = d.count code +
      countOf ((((d.target ut (encode flt)).toList.map fun code => (⟨flt, code⟩ : Record))).map
        fun a => (now, a)) code := by
  rw [increase_eq_target]
  cases d.target ut (encode flt) with
  | none => rfl
  | some i =>
    rw [Option.map_some, Option.getD_some, Data.count_fetchAdd, countOf]
    refine congrArg _ ?_
    rw [Option.toList_some, List.map_singleton, List.map_singleton, List.countP_singleton]
    simp only [decide_eq_true_eq]

/-- An observation is put into the front slot where a counter is found for it. -/
theorem Mirrors.put (h : Mirrors s w) (ut : UintType) (flt : Flt) (now : ℕ) :
    Mirrors
      { s with
        data := Function.update s.data s.frontendDataIndex
          (some ((s.slotData s.frontendDataIndex).increase ut (encode flt))) }
      (w.put now (((s.slotData s.frontendDataIndex).target ut (encode flt)).toList.map
        fun code => ⟨flt, code⟩)) := by
  refine ⟨h.tp, fun code => ?_, fun code => ?_, fun a ha => ?_⟩
  · rw [Window.put, countOf_append, ← h.front]
    unfold State.count
    dsimp only
    rw [Function.update_self, Option.getD_some]
    exact count_increase ut _ flt now code
  · have hne : (!s.frontendDataIndex) ≠ s.frontendDataIndex := by
      cases s.frontendDataIndex <;> decide
    rw [Window.put, ← h.back]
    unfold State.count
    dsimp only
    rw [Function.update_of_ne hne]
  · rw [Window.put, Window.kept, ← List.append_assoc] at ha
    rcases List.mem_append.mp ha with ha | ha
    · exact h.lt a ha
    · obtain ⟨r, hr, rfl⟩ := List.mem_map.mp ha
      obtain ⟨code, hcode, rfl⟩ := List.mem_map.mp hr
      exact (target_lt (encode_lt flt) (Option.mem_toList.mp hcode)).2.trans_le (upperOf_le _)

theorem Mirrors.call (h : Mirrors s w) (hpos : 0 < refreshTime) (c : Call) :
    Mirrors (s.call ut refreshTime c)
      (w.call (refreshTime * msCount) (c.now, s.records ut refreshTime c)) := by
  have href := h.refresh hpos c.now
  unfold State.call State.records Window.call
  cases c.flt with
  | none =>
    rw [put_nil]
    exact href
  | some flt => exact href.put ut flt c.now

theorem Mirrors.run (h : Mirrors s w) (ut : UintType) (hpos : 0 < refreshTime)
    (calls : List Call) :
    Mirrors (calls.foldl (State.call ut refreshTime) s)
      (w.run (refreshTime * msCount) (s.events ut refreshTime calls)) := by
  induction calls generalizing s w with
  | nil => exact h
  | cons c calls ih => exact ih (h.call hpos c)

/-- The entries that `stat` walks through count what is kept. -/
theorem Mirrors.total_entries (h : Mirrors s w) : total (entries s) = w.kept.length := by
  have hslot : ∀ (slot : Bool) (items : List (ℕ × Record)),
      (∀ code, s.count slot code = countOf items code) →
      (∀ a ∈ items, a.2.code < bucketSize) → total (s.slotData slot).stat = items.length := by
    intro slot items hcount hlt
    have hperm : (s.slotData slot).codes.Perm (items.map fun a => a.2.code) := by
      rw [List.perm_iff_count]
      intro code
      have hitems : (items.map fun a => a.2.code).count code = countOf items code := by
        rw [List.count, List.countP_map]
        exact List.countP_congr fun a _ => by simp
      rw [hitems]
      by_cases hcode : code < bucketSize
      · rw [count_codes hcode]
        exact hcount code
      · rw [List.count_eq_zero.mpr fun hmem => hcode (lt_of_mem_codes hmem), eq_comm, countOf,
          List.countP_eq_zero]
        intro a ha heq
        exact hcode (of_decide_eq_true heq ▸ hlt a ha)
    rw [← length_flts, flts_stat, List.length_map, hperm.length_eq, List.length_map]
  have hfront := hslot s.frontendDataIndex w.front h.front fun a ha =>
    h.lt a (List.mem_append_right _ ha)
  have hback := hslot (!s.frontendDataIndex) w.back h.back fun a ha =>
    h.lt a (List.mem_append_left _ ha)
  have hsum : total (entries s) =
      total (s.slotData false).stat + total (s.slotData true).stat := by
    rw [← total_append]
    exact ((entries_perm s).map Prod.snd).sum_eq
  rw [hsum, Window.kept, List.length_append, ← hfront, ← hback]
  cases s.frontendDataIndex with
  | false => exact Nat.add_comm _ _
  | true => rfl

end Mirrors

/-! ### The count for quantiles in any order -/

section Count

variable {w : Walk} {passed left : List Entry} {n : ℕ}

theorem Walk.At.advance_of_le {target : ℚ} (hw : w.At passed left)
    (htarget : target ≤ total (passed ++ left)) :
    ∃ w' passed' left', w.advance target (w.copy.size + 1) = some w' ∧ w'.At passed' left' ∧
      passed' ++ left' = passed ++ left := by
  by_cases hreached : target ≤ w.countNow
  · exact ⟨w, passed, left, if_pos hreached, hw, rfl⟩
  have hfuel : left.length < w.copy.size + 1 := by
    rw [hw.merges.size_eq]
    exact Nat.lt_succ_self _
  have hminimal : Minimal ⌈target⌉₊ passed := by
    intro es e heq
    have hlt := Nat.lt_ceil.mpr (not_le.mp hreached)
    rw [hw.countNow, heq, total_concat] at hlt
    omega
  obtain ⟨w', passed', left', hrun, hw', happend, -⟩ :=
    hw.advance (fun m => Nat.ceil_le.symm) hminimal (Nat.ceil_le.mpr htarget) hfuel
  exact ⟨w', passed', left', hrun, hw', happend⟩

/-- A quantile is not read behind the last entry, and not at all where it is negative or no number.
-/
theorem Walk.At.quantile_of_total (hw : w.At passed left) (hn : total (passed ++ left) = n)
    (q : Option ℚ) :
    ∃ w' passed' left', w.quantile n q = some w' ∧ w'.At passed' left' ∧
      passed' ++ left' = passed ++ left := by
  cases q with
  | none => exact ⟨w, passed, left, rfl, hw, rfl⟩
  | some q =>
    unfold Walk.quantile
    by_cases hneg : q < 0
    · exact ⟨w, passed, left, if_pos hneg, hw, rfl⟩
    · simp only [if_neg hneg]
      apply hw.advance_of_le
      rw [hn]
      have hmin : ∀ a : ℚ, min a (n : ℚ) ≤ n := fun a => min_le_right _ _
      split_ifs <;> exact hmin _

theorem quantiles_of_total (hw : w.At passed left) (hn : total (passed ++ left) = n)
    (rate : List (Option ℚ)) :
    ∃ result w' passed' left', Walk.quantiles n w rate = some (result, w') ∧ w'.At passed' left' ∧
      passed' ++ left' = passed ++ left := by
  induction rate generalizing w passed left with
  | nil => exact ⟨[], w, passed, left, rfl, hw, rfl⟩
  | cons q rate ih =>
    obtain ⟨w₁, passed₁, left₁, hrun, hw₁, happend⟩ := hw.quantile_of_total hn q
    obtain ⟨result, w', passed', left', hrest, hw', happend'⟩ := ih hw₁ (happend ▸ hn)
    refine ⟨w₁.v :: result, w', passed', left', ?_, hw', happend'.trans happend⟩
    rw [Walk.quantiles, hrun, Option.bind_some, hrest]
    rfl

theorem stat_eq_refresh (refreshTime now : ℕ) (s : State) (rate : List (Option ℚ)) :
    s.stat refreshTime now rate = (s.refresh refreshTime now).stat 0 now rate := by
  have hrefresh : ∀ s : State, s.refresh 0 now = s := fun _ => if_pos rfl
  rw [State.stat, State.stat, hrefresh]

/-- `stat` ends, and its count is what the entries count. -/
theorem stat_counts (s : State) (now : ℕ) (rate : List (Option ℚ)) :
    ∃ sum result, s.stat 0 now rate = some (sum, total (entries s), result) := by
  rcases Nat.eq_zero_or_pos (total (entries s)) with hzero | hpos
  · rw [hzero]
    exact ⟨0, _, stat_of_total_eq_zero hzero now rate⟩
  have htotal : ((s.slotData false).stat.map Prod.snd).sum +
      ((s.slotData true).stat.map Prod.snd).sum = total (entries s) := by
    have := ((entries_perm s).map Prod.snd).sum_eq
    rw [List.map_append, List.sum_append] at this
    exact this.symm
  have hrefresh : s.refresh 0 now = s := if_pos rfl
  have hstart : Walk.At ⟨0, negFloat16Max, 0,
      DataCopy.init (s.slotData false).stat (s.slotData true).stat⟩ [] (entries s) := by
    refine ⟨merges_init fun e he => ?_, rfl, rfl, fun es e heq => ?_⟩
    · exact (fst_mem_range ((entries_perm s).mem_iff.mpr he)).2
    · exact absurd heq.symm (by simp)
  obtain ⟨result, w, passed, left, hrun, hw, happend⟩ := quantiles_of_total hstart rfl rate
  rw [List.nil_append] at hrun happend
  have hleft : ∀ e ∈ left, e ∈ entries s := by
    intro e he
    rw [← happend]
    exact List.mem_append_right _ he
  have hpairs : left.Pairwise fun a b => a.1 ≤ b.1 := by
    have := pairwise_entries s
    rw [← happend, List.pairwise_append] at this
    exact this.2.1
  have hfuel : left.length < w.copy.size + 1 := by
    rw [hw.merges.size_eq]
    exact Nat.lt_succ_self _
  obtain ⟨sum, hrest⟩ : ∃ sum, sumRest (w.copy.size + 1) w.copy w.sum = some sum :=
    ⟨_, sumRest_eq hw.merges (fun e he => fst_mem_range (hleft e he)) hpairs hfuel⟩
  refine ⟨sum, result, ?_⟩
  unfold State.stat
  dsimp only
  rw [hrefresh, elim_stat, elim_stat, htotal, if_neg (Nat.ne_of_gt hpos), hrun, Option.bind_some]
  dsimp only
  rw [hrest]
  rfl

end Count

/-! ### What is counted -/

/-- The clock's ticks of an age in seconds. -/
def ticks (age : ℕ) : ℕ := age * msPerSecond * msCount

/-- All counters with the sign of a code are full. -/
def Data.Full (ut : UintType) (d : Data) (pos : ℕ) : Prop :=
  ut = .uint32 ∧ ∀ i, lowerOf pos ≤ i → i < upperOf pos → nearUint32Max < d.count i

/-- What `stat` counts at the time `now` behind a run: the last observations of it, so none of them
twice. All of less than half the age are among them and none of one and a half, nor any from before
a pause of the age between the calls. -/
structure Windowed (ut : UintType) (maxAge start now : ℕ) (calls : List Call)
    (kept : List (ℕ × Record)) : Prop where
  recent : ∃ dropped, counted ut maxAge start calls = dropped ++ kept ∧
    ∀ a ∈ dropped, ticks maxAge ≤ 2 * (now - a.1)
  age : ∀ a ∈ kept, a.1 ≤ now ∧ 2 * (now - a.1) < 3 * ticks maxAge
  idle : ∀ before after, calls = before ++ after →
    (before.map Call.now).getLastD start + ticks maxAge ≤ (after.map Call.now).headD now →
    ∀ a ∈ kept, (after.map Call.now).headD now ≤ a.1
  count : ∀ code, ((State.run ut maxAge start calls).refresh (refreshTime maxAge) now).count false
    code + ((State.run ut maxAge start calls).refresh (refreshTime maxAge) now).count true code =
      countOf kept code
  stat : ∀ rate, ∃ sum result,
    (State.run ut maxAge start calls).stat (refreshTime maxAge) now rate =
      some (sum, kept.length, result)

theorem refreshTime_eq {maxAge : ℕ} (hfits : maxAge * msPerSecond < 2 ^ 64) :
    2 * (refreshTime maxAge * msCount) = ticks maxAge := by
  have hms : msPerSecond = 1000 := rfl
  rw [refreshTime, Nat.mod_eq_of_lt hfits, ticks, ← Nat.mul_assoc, hms]
  refine congrArg (· * msCount) ?_
  omega

/-- The times of a run. -/
theorem map_fst_events (ut : UintType) (refreshTime : ℕ) (s : State) (calls : List Call) :
    (s.events ut refreshTime calls).map Prod.fst = calls.map Call.now := by
  induction calls generalizing s with
  | nil => rfl
  | cons c calls ih =>
    rw [State.events, List.map_cons, ih]
    rfl

theorem events_append (ut : UintType) (refreshTime : ℕ) (s : State) (before after : List Call) :
    s.events ut refreshTime (before ++ after) = s.events ut refreshTime before ++
      (before.foldl (State.call ut refreshTime) s).events ut refreshTime after := by
  induction before generalizing s with
  | nil => rfl
  | cons c before ih =>
    rw [List.cons_append, State.events, ih]
    rfl

theorem target_eq_none_iff (ut : UintType) (d : Data) {pos : ℕ} (hpos : pos < bucketSize) :
    d.target ut pos = none ↔ d.Full ut pos := by
  cases ut with
  | uint64 =>
    constructor
    · intro h
      cases h
    · intro h
      cases h.1
  | uint32 =>
    unfold Data.target Data.Full
    rw [find?_candidates_eq_none_iff (half_of_lt hpos)]
    simp only [decide_eq_false_iff_not, Nat.not_le, true_and]

/-- `stat` counts a window of the observations of a run that a counter was found for, and a counter
is found unless all of the sign are full. -/
theorem stat_windowed (ut : UintType) (maxAge start now : ℕ) (calls : List Call)
    (hage : 0 < maxAge) (hfits : maxAge * msPerSecond < 2 ^ 64)
    (hsorted : (start :: (calls.map Call.now ++ [now])).Pairwise (· ≤ ·)) :
    (∃ kept, Windowed ut maxAge start now calls kept) ∧
      ∀ (d : Data) (flt : Flt), d.target ut (encode flt) = none ↔ d.Full ut (encode flt) := by
  refine ⟨?_, fun d flt => target_eq_none_iff ut d (encode_lt flt)⟩
  have hticks := refreshTime_eq hfits
  have hpos : 0 < refreshTime maxAge := by
    have hms : msPerSecond = 1000 := rfl
    rw [refreshTime, Nat.mod_eq_of_lt hfits, hms]
    omega
  have hperiod : 0 < refreshTime maxAge * msCount := Nat.mul_pos hpos (by decide)
  have hmirrors := ((Mirrors.start start).run ut hpos calls).refresh hpos now
  have hevents : (start :: ((State.events ut (refreshTime maxAge) { tp := start } calls).map
      Prod.fst ++ [now])).Pairwise (· ≤ ·) := by
    rw [map_fst_events]
    exact hsorted
  generalize refreshTime maxAge * msCount = period at hticks hperiod hmirrors
  generalize hkept : ((⟨start, [], []⟩ : Window Record).run period
    (State.events ut (refreshTime maxAge) { tp := start } calls)).refresh period now = w at hmirrors
  refine ⟨w.kept, ?_, fun a ha => ?_, fun before after hcalls hidle a ha => ?_, fun code => ?_,
    fun rate => ?_⟩
  · obtain ⟨dropped, hhistory, hdropped⟩ := kept_suffix hperiod hevents
    rw [hkept] at hhistory
    refine ⟨dropped, hhistory, fun a ha => ?_⟩
    have := hdropped a ha
    omega
  · rw [← hkept] at ha
    obtain ⟨hle, hlt⟩ := lt_of_mem_kept hperiod hevents ha
    exact ⟨hle, by omega⟩
  · have hsplit := events_append ut (refreshTime maxAge) { tp := start } before after
    rw [← hcalls] at hsplit
    rw [← hkept] at ha
    have hge := ge_of_mem_kept hperiod hevents hsplit
    rw [lastTime, map_fst_events, map_fst_events, hticks] at hge
    exact hge hidle ha
  · have hfront := hmirrors.front code
    have hback := hmirrors.back code
    rw [Window.kept, countOf_append, ← hfront, ← hback]
    unfold State.run
    cases ((calls.foldl (State.call ut (refreshTime maxAge)) { tp := start }).refresh
        (refreshTime maxAge) now).frontendDataIndex with
    | false => exact Nat.add_comm _ _
    | true => rfl
  · rw [stat_eq_refresh, ← hmirrors.total_entries]
    exact stat_counts _ now rate

theorem stat_windowed_one : ∃ kept, Windowed .uint32 1 0 700000000
    [⟨0, some 0x3F800000⟩, ⟨600000000, none⟩, ⟨650000000, some 0xC0000000⟩] kept :=
  (stat_windowed .uint32 1 0 700000000
    [⟨0, some 0x3F800000⟩, ⟨600000000, none⟩, ⟨650000000, some 0xC0000000⟩] (by decide) (by decide)
    (by decide)).1

/-! ### What is not counted -/

section Full

variable {s : State}

/-- No counter of 32 bits is above the one that makes it full. -/
def State.Bounded (s : State) : Prop := ∀ slot code, s.count slot code ≤ nearUint32Max + 1

theorem State.Bounded.refresh (h : s.Bounded) (refreshTime now : ℕ) :
    (s.refresh refreshTime now).Bounded := by
  intro slot code
  have hzero : ∀ d : Option Data,
      ((d.map Data.refresh).getD Data.empty).count code ≤ nearUint32Max + 1 := by
    intro d
    rw [count_map_refresh]
    exact Nat.zero_le _
  unfold State.refresh
  split_ifs
  · exact h slot code
  · dsimp only
    split_ifs
    · exact hzero _
    · unfold State.count
      dsimp only
      by_cases hslot : slot = !s.frontendDataIndex
      · rw [hslot, Function.update_self]
        exact hzero _
      · rw [Function.update_of_ne hslot]
        exact h slot code
    · exact h slot code

theorem State.Bounded.call (h : s.Bounded) (refreshTime : ℕ) (c : Call) :
    (s.call .uint32 refreshTime c).Bounded := by
  have href := h.refresh refreshTime c.now
  unfold State.call
  cases c.flt with
  | none => exact href
  | some flt =>
    intro slot code
    unfold State.insert
    generalize s.refresh refreshTime c.now = s' at href ⊢
    unfold State.count
    dsimp only
    by_cases hslot : slot = s'.frontendDataIndex
    · rw [hslot, Function.update_self, Option.getD_some, increase_eq_target]
      have hfront : ((s'.data s'.frontendDataIndex).getD Data.empty).count code ≤
          nearUint32Max + 1 := href s'.frontendDataIndex code
      generalize (s'.data s'.frontendDataIndex).getD Data.empty = d at hfront ⊢
      cases htarget : d.target .uint32 (encode flt) with
      | none => exact hfront
      | some i =>
        -- the counter that is found is not full
        unfold Data.target at htarget
        have hfree := List.find?_some htarget
        rw [decide_eq_true_iff] at hfree
        rw [Option.map_some, Option.getD_some, Data.count_fetchAdd]
        split_ifs with hcode
        · rw [← hcode]
          exact Nat.succ_le_succ hfree
        · exact hfront
    · rw [Function.update_of_ne hslot]
      exact href slot code

theorem State.Bounded.run (maxAge start : ℕ) (calls : List Call) :
    (State.run .uint32 maxAge start calls).Bounded := by
  have hfold : ∀ s : State, s.Bounded →
      (calls.foldl (State.call .uint32 (Summary.refreshTime maxAge)) s).Bounded := by
    induction calls with
    | nil => exact fun s h => h
    | cons c calls ih => exact fun s h => ih _ (h.call _ c)
  exact hfold _ fun slot code => Nat.zero_le _

/-- What all counters of both slots can count. -/
theorem State.Bounded.total_le (h : s.Bounded) :
    total (entries s) ≤ 2 * bucketSize * (nearUint32Max + 1) := by
  have hlength : walkOrder.length ≤ bucketSize := by
    have hsubset : walkOrder ⊆ List.range bucketSize := fun code hcode =>
      List.mem_range.mpr (mem_walkOrder.mp hcode)
    have hle := (nodup_walkOrder.subperm hsubset).length_le
    rwa [List.length_range] at hle
  have hcells : ∀ (slot : Bool) (codes : List ℕ),
      (codes.flatMap fun code => List.replicate ((s.slotData slot).count code) code).length ≤
        codes.length * (nearUint32Max + 1) := by
    intro slot codes
    induction codes with
    | nil => exact Nat.zero_le _
    | cons code codes ih =>
      rw [List.flatMap_cons, List.length_append, List.length_replicate, List.length_cons,
        Nat.succ_mul, Nat.add_comm]
      exact Nat.add_le_add ih (h slot code)
  have hslot : ∀ slot, total (s.slotData slot).stat ≤ bucketSize * (nearUint32Max + 1) := by
    intro slot
    rw [← length_flts, flts_stat, List.length_map]
    exact (hcells slot walkOrder).trans (Nat.mul_le_mul_right _ hlength)
  have hsum : total (entries s) =
      total (s.slotData false).stat + total (s.slotData true).stat := by
    rw [← total_append]
    exact ((entries_perm s).map Prod.snd).sum_eq
  have hfalse := hslot false
  have htrue := hslot true
  rw [hsum, Nat.mul_assoc, Nat.two_mul]
  exact Nat.add_le_add hfalse htrue

theorem exists_count_le (maxAge start now : ℕ) (calls : List Call) (rate : List (Option ℚ)) :
    ∃ sum count result, (State.run .uint32 maxAge start calls).stat (refreshTime maxAge) now rate =
      some (sum, count, result) ∧ count ≤ 2 * bucketSize * (nearUint32Max + 1) := by
  have hbounded := (State.Bounded.run maxAge start calls).refresh (refreshTime maxAge) now
  obtain ⟨sum, result, hstat⟩ :=
    stat_counts ((State.run .uint32 maxAge start calls).refresh (refreshTime maxAge) now) now rate
  exact ⟨sum, _, result, (stat_eq_refresh _ now _ rate).trans hstat, hbounded.total_le⟩

/-- Of observations at one time, more than the counters can count, some are not counted. An
observation of 20 ms is not counted where the milliseconds of the age wrap around. -/
theorem not_stat_windowed :
    (∃ sum count result,
      (State.run .uint32 1 0
        (List.replicate (32768 * 4290000001 + 1) ⟨0, some 0x3F800000⟩)).stat (refreshTime 1) 0 [] =
          some (sum, count, result) ∧ count < 32768 * 4290000001 + 1) ∧
    (State.run .uint32 2066035336255469781 0 [⟨0, some 0x3F800000⟩]).stat
      (refreshTime 2066035336255469781) 20000000 [] = some (0, 0, []) := by
  refine ⟨?_, by decide +kernel⟩
  obtain ⟨sum, count, result, hstat, hle⟩ := exists_count_le 1 0 0
    (List.replicate (32768 * 4290000001 + 1) ⟨0, some 0x3F800000⟩) []
  have hcapacity : 2 * bucketSize * (nearUint32Max + 1) = 32768 * 4290000001 := by decide
  rw [hcapacity] at hle
  exact ⟨sum, count, result, hstat, Nat.lt_succ_of_le hle⟩

end Full

end Yalantinglibs.Metric.Summary
