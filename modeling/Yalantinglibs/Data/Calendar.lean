import Mathlib.Algebra.Order.BigOperators.Group.List
import Mathlib.Algebra.BigOperators.Group.Finset.Basic
import Mathlib.Algebra.GroupWithZero.Nat
import Mathlib.Data.Int.Notation
import Mathlib.Data.List.GetD
import Mathlib.Tactic.Common

/-!
# The calendar

The proleptic Gregorian calendar: days are numbered from the first day of year 1 on, in both
directions, and seconds from the beginning of 1970. Dates are valid by their type, so that each day
has one date, and each second one date and time.

## Main definitions

* `isLeap`, `monthLengths`, `daysBeforeYear` — the lengths of months and years
* `Date`, `Date.dayNumber`, `dateOfDay` — the dates, and the numbers of the days
* `DateTime`, `DateTime.toSeconds`, `dateTimeOf` — the dates with a time, and the seconds

## Main results

* `daysBeforeYear_succ` — a year has the days of its months
* `dayNumber_dateOfDay`, `dateOfDay_dayNumber` — days and dates
* `toSeconds_dateTimeOf`, `dateTimeOf_toSeconds` — seconds and dates with a time
-/

set_option autoImplicit false

namespace Yalantinglibs

namespace Calendar

/-! ### Years and months -/

/-- Every fourth year is a leap year, but of those that end a century only every fourth. -/
def isLeap (y : ℤ) : Bool := y % 4 = 0 && (y % 100 ≠ 0 || y % 400 = 0)

/-- The lengths of the months. -/
def monthLengths (leap : Bool) : List ℕ :=
  [31, if leap then 29 else 28, 31, 30, 31, 30, 31, 31, 30, 31, 30, 31]

/-- The days of the years from year 1 up to a year. -/
def daysBeforeYear (y : ℤ) : ℤ := 365 * (y - 1) + (y - 1) / 4 - (y - 1) / 100 + (y - 1) / 400

theorem length_monthLengths (leap : Bool) : (monthLengths leap).length = 12 := rfl

theorem sum_monthLengths (leap : Bool) : (monthLengths leap).sum = if leap then 366 else 365 := by
  cases leap <;> rfl

/-- A year has the days of its months. -/
theorem daysBeforeYear_succ (y : ℤ) :
    daysBeforeYear (y + 1) = daysBeforeYear y + (monthLengths (isLeap y)).sum := by
  rw [sum_monthLengths, daysBeforeYear, daysBeforeYear]
  by_cases h : isLeap y = true
  · rw [if_pos h]
    simp only [isLeap, Bool.and_eq_true, Bool.or_eq_true, decide_eq_true_eq] at h
    omega
  · rw [if_neg h]
    simp only [isLeap, Bool.and_eq_true, Bool.or_eq_true, decide_eq_true_eq] at h
    omega

theorem daysBeforeYear_mono {y y' : ℤ} (h : y ≤ y') : daysBeforeYear y ≤ daysBeforeYear y' := by
  rw [daysBeforeYear, daysBeforeYear]
  omega

/-- The year of a day, by the cycles of four centuries, of one, and of four years. -/
def yearOfDay (n : ℤ) : ℤ :=
  let r400 := n % 146097
  let n100 := min (r400 / 36524) 3
  let r100 := r400 - 36524 * n100
  let n4 := r100 / 1461
  let r4 := r100 - 1461 * n4
  let n1 := min (r4 / 365) 3
  400 * (n / 146097) + 100 * n100 + 4 * n4 + n1 + 1

theorem daysBeforeYear_cycles (q : ℤ) {c f k : ℤ} (hc : 0 ≤ c ∧ c ≤ 3) (hf : 0 ≤ f ∧ f ≤ 24)
    (hk : 0 ≤ k ∧ k ≤ 3) : daysBeforeYear (400 * q + 100 * c + 4 * f + k + 1) =
      146097 * q + 36524 * c + 1461 * f + 365 * k := by
  have h4 : (400 * q + 100 * c + 4 * f + k) / 4 = 100 * q + 25 * c + f := by omega
  have h100 : (400 * q + 100 * c + 4 * f + k) / 100 = 4 * q + c := by omega
  have h400 : (400 * q + 100 * c + 4 * f + k) / 400 = q := by omega
  rw [daysBeforeYear, Int.add_sub_cancel, h4, h100, h400]
  omega

theorem isLeap_cycles (q : ℤ) {c f k : ℤ} (hc : 0 ≤ c ∧ c ≤ 3) (hf : 0 ≤ f ∧ f ≤ 24)
    (hk : 0 ≤ k ∧ k ≤ 3) : isLeap (400 * q + 100 * c + 4 * f + k + 1) = true ↔
      k = 3 ∧ (f = 24 → c = 3) := by
  simp only [isLeap, Bool.and_eq_true, Bool.or_eq_true, decide_eq_true_eq]
  omega

/-- A day is in the year that is found for it. -/
theorem yearOfDay_spec (n : ℤ) :
    daysBeforeYear (yearOfDay n) ≤ n ∧ n < daysBeforeYear (yearOfDay n + 1) := by
  -- the remainders, from the longest cycle to the days of the year
  obtain ⟨r, hr⟩ : ∃ r, r = n % 146097 := ⟨_, rfl⟩
  obtain ⟨c, hc⟩ : ∃ c, c = min (r / 36524) 3 := ⟨_, rfl⟩
  obtain ⟨f, hf⟩ : ∃ f, f = (r - 36524 * c) / 1461 := ⟨_, rfl⟩
  obtain ⟨k, hk⟩ : ∃ k, k = min ((r - 36524 * c - 1461 * f) / 365) 3 := ⟨_, rfl⟩
  have hyear : yearOfDay n = 400 * (n / 146097) + 100 * c + 4 * f + k + 1 := by
    rw [hk, hf, hc, hr]
    rfl
  have hc' : 0 ≤ c ∧ c ≤ 3 := by omega
  have hrest : 0 ≤ r - 36524 * c ∧ r - 36524 * c ≤ 36524 ∧ (r - 36524 * c = 36524 → c = 3) := by
    omega
  have hf' : 0 ≤ f ∧ f ≤ 24 := by omega
  have hk' : 0 ≤ k ∧ k ≤ 3 := by omega
  rw [daysBeforeYear_succ, sum_monthLengths, hyear, daysBeforeYear_cycles _ hc' hf' hk']
  by_cases hleap : isLeap (400 * (n / 146097) + 100 * c + 4 * f + k + 1) = true
  · rw [if_pos hleap]
    omega
  · rw [if_neg hleap]
    rw [isLeap_cycles _ hc' hf' hk'] at hleap
    omega

/-- It is the only year with the day. -/
theorem eq_yearOfDay {n y : ℤ} (h : daysBeforeYear y ≤ n) (h' : n < daysBeforeYear (y + 1)) :
    y = yearOfDay n := by
  obtain ⟨hle, hlt⟩ := yearOfDay_spec n
  apply Int.le_antisymm
  · by_contra hc
    have := daysBeforeYear_mono (show yearOfDay n + 1 ≤ y by omega)
    omega
  · by_contra hc
    have := daysBeforeYear_mono (show y + 1 ≤ yearOfDay n by omega)
    omega

/-! ### Places in a list of lengths -/

/-- The part that holds a place, and the place in it. -/
def locate : List ℕ → ℕ → ℕ × ℕ
  | [], n => (0, n)
  | l :: ls, n => if n < l then (0, n) else ((locate ls (n - l)).1 + 1, (locate ls (n - l)).2)

theorem locate_spec {ls : List ℕ} {n : ℕ} (h : n < ls.sum) :
    (locate ls n).1 < ls.length ∧ (locate ls n).2 < ls.getD (locate ls n).1 0 ∧
      (ls.take (locate ls n).1).sum + (locate ls n).2 = n := by
  induction ls generalizing n with
  | nil => exact absurd h (Nat.not_lt_zero n)
  | cons l ls ih =>
    rw [List.sum_cons] at h
    rw [locate]
    by_cases hn : n < l
    · rw [if_pos hn]
      exact ⟨Nat.succ_pos _, hn, Nat.zero_add n⟩
    · obtain ⟨h₁, h₂, h₃⟩ := ih (show n - l < ls.sum by omega)
      rw [if_neg hn]
      refine ⟨Nat.succ_lt_succ h₁, h₂, ?_⟩
      rw [List.take_succ_cons, List.sum_cons]
      omega

/-- A place is found where it is. -/
theorem locate_eq {ls : List ℕ} {i r : ℕ} (h : r < ls.getD i 0) :
    locate ls ((ls.take i).sum + r) = (i, r) := by
  induction ls generalizing i with
  | nil => exact absurd h (Nat.not_lt_zero r)
  | cons l ls ih =>
    rw [locate]
    cases i with
    | zero =>
      have hr : r < l := h
      rw [List.take_zero, List.sum_nil, Nat.zero_add, if_pos hr]
    | succ i =>
      have hi := ih (i := i) h
      rw [List.take_succ_cons, List.sum_cons, if_neg (by omega), Nat.add_assoc,
        Nat.add_sub_cancel_left, hi]

theorem sum_take_add_lt {ls : List ℕ} {i r : ℕ} (h : r < ls.getD i 0) :
    (ls.take i).sum + r < ls.sum := by
  induction ls generalizing i with
  | nil => exact absurd h (Nat.not_lt_zero r)
  | cons l ls ih =>
    cases i with
    | zero =>
      have hr : r < l := h
      rw [List.take_zero, List.sum_nil, List.sum_cons]
      omega
    | succ i =>
      have hi := ih (i := i) h
      rw [List.take_succ_cons, List.sum_cons, List.sum_cons]
      omega

/-! ### Dates -/

/-- A date. The months are counted from 0, the days of a month from 1. -/
@[ext]
structure Date where
  year : ℤ
  month : ℕ
  day : ℕ
  day_pos : 1 ≤ day
  day_le : day ≤ (monthLengths (isLeap year)).getD month 0

namespace Date

/-- The days of the year before the month. -/
def daysBeforeMonth (leap : Bool) (month : ℕ) : ℕ := ((monthLengths leap).take month).sum

/-- The number of the day: the first day of year 1 is day 0. -/
def dayNumber (d : Date) : ℤ :=
  daysBeforeYear d.year + daysBeforeMonth (isLeap d.year) d.month + d.day - 1

/-- The day of the week, from Sunday on. The first day of year 1 is a Monday. -/
def weekday (d : Date) : ℕ := ((d.dayNumber + 1) % 7).toNat

theorem weekday_lt (d : Date) : d.weekday < 7 := by
  rw [weekday]
  omega

theorem month_lt (d : Date) : d.month < 12 := by
  have hpos := d.day_pos
  have hle := d.day_le
  by_contra h
  rw [List.getD_eq_default _ _ (by rw [length_monthLengths]; omega)] at hle
  omega

/-- The day is in the year of the date. -/
theorem dayNumber_bounds (d : Date) :
    daysBeforeYear d.year ≤ d.dayNumber ∧ d.dayNumber < daysBeforeYear (d.year + 1) := by
  have hpos := d.day_pos
  have hlt := sum_take_add_lt (show d.day - 1 < (monthLengths (isLeap d.year)).getD d.month 0 from
    by have := d.day_le; omega)
  rw [daysBeforeYear_succ, dayNumber, daysBeforeMonth]
  omega

end Date

/-- The place of a day in its year. -/
def placeOfDay (n : ℤ) : ℕ × ℕ :=
  locate (monthLengths (isLeap (yearOfDay n))) (n - daysBeforeYear (yearOfDay n)).toNat

theorem placeOfDay_spec (n : ℤ) :
    (placeOfDay n).2 < (monthLengths (isLeap (yearOfDay n))).getD (placeOfDay n).1 0 ∧
      daysBeforeYear (yearOfDay n) + Date.daysBeforeMonth (isLeap (yearOfDay n)) (placeOfDay n).1 +
        (placeOfDay n).2 = n := by
  obtain ⟨hle, hlt⟩ := yearOfDay_spec n
  rw [daysBeforeYear_succ] at hlt
  obtain ⟨-, h₁, h₂⟩ := locate_spec (show (n - daysBeforeYear (yearOfDay n)).toNat <
    (monthLengths (isLeap (yearOfDay n))).sum by omega)
  refine ⟨h₁, ?_⟩
  rw [Date.daysBeforeMonth, placeOfDay]
  omega

/-- The date of a day. -/
def dateOfDay (n : ℤ) : Date where
  year := yearOfDay n
  month := (placeOfDay n).1
  day := (placeOfDay n).2 + 1
  day_pos := Nat.succ_pos _
  day_le := (placeOfDay_spec n).1

theorem dayNumber_dateOfDay (n : ℤ) : (dateOfDay n).dayNumber = n := by
  have h := (placeOfDay_spec n).2
  rw [Date.dayNumber, dateOfDay]
  push_cast
  omega

theorem dateOfDay_dayNumber (d : Date) : dateOfDay d.dayNumber = d := by
  obtain ⟨hle, hlt⟩ := d.dayNumber_bounds
  have hyear : yearOfDay d.dayNumber = d.year := (eq_yearOfDay hle hlt).symm
  have hpos := d.day_pos
  have hplace : placeOfDay d.dayNumber = (d.month, d.day - 1) := by
    have hn : (d.dayNumber - daysBeforeYear d.year).toNat =
        ((monthLengths (isLeap d.year)).take d.month).sum + (d.day - 1) := by
      rw [Date.dayNumber, Date.daysBeforeMonth]
      omega
    rw [placeOfDay, hyear, hn]
    exact locate_eq (by have := d.day_le; omega)
  ext
  · exact hyear
  · exact congrArg Prod.fst hplace
  · have h₂ := congrArg Prod.snd hplace
    simp only at h₂
    simp only [dateOfDay, h₂]
    omega

/-! ### Dates with a time -/

/-- A date and a time of that day. -/
@[ext]
structure DateTime where
  date : Date
  hour : ℕ
  minute : ℕ
  second : ℕ
  hour_lt : hour < 24
  minute_lt : minute < 60
  second_lt : second < 60

/-- The number of the first day of 1970. -/
def epochDay : ℤ := 719162

/-- The seconds since the beginning of 1970. -/
def DateTime.toSeconds (t : DateTime) : ℤ :=
  (t.date.dayNumber - epochDay) * 86400 + t.hour * 3600 + t.minute * 60 + t.second

/-- The date and time that many seconds after the beginning of 1970. -/
def dateTimeOf (s : ℤ) : DateTime where
  date := dateOfDay (s / 86400 + epochDay)
  hour := (s % 86400 / 3600).toNat
  minute := (s % 3600 / 60).toNat
  second := (s % 60).toNat
  hour_lt := by omega
  minute_lt := by omega
  second_lt := by omega

theorem toSeconds_dateTimeOf (s : ℤ) : (dateTimeOf s).toSeconds = s := by
  rw [DateTime.toSeconds, dateTimeOf, dayNumber_dateOfDay]
  dsimp only
  omega

theorem dateTimeOf_toSeconds (t : DateTime) : dateTimeOf t.toSeconds = t := by
  have hhour := t.hour_lt
  have hminute := t.minute_lt
  have hsecond := t.second_lt
  have hday : t.toSeconds / 86400 + epochDay = t.date.dayNumber := by
    rw [DateTime.toSeconds]
    omega
  ext1
  · rw [dateTimeOf, hday, dateOfDay_dayNumber]
  · change (t.toSeconds % 86400 / 3600).toNat = t.hour
    rw [DateTime.toSeconds]
    omega
  · change (t.toSeconds % 3600 / 60).toNat = t.minute
    rw [DateTime.toSeconds]
    omega
  · change (t.toSeconds % 60).toNat = t.second
    rw [DateTime.toSeconds]
    omega

end Calendar

end Yalantinglibs
