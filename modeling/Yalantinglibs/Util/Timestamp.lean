import Mathlib.Data.List.GetD
import Yalantinglibs.Util.TimeText

/-!
# Reading times

`util/time_util.h`, `get_timestamp`. A format is a list of components, which are read one after the
other. The names of the days and months are looked up by a hash of two of their characters. The
seconds are counted from a year some 292 billion years ago, in unsigned arithmetic.

## Main definitions

* `Component`, `TimeFormat` — the formats
* `getTimestamp` — the parser
* `Component.Piece`, `Pieces` — what the components are read from

## Main results

* `fasterMktime_eq` — the seconds of a date and time
* `getTimestamp_http_iff`, `getTimestamp_utc_iff`, `getTimestamp_utcWithoutPunctuation_iff` — the
  strings that are read, and the times they are read as
-/

set_option autoImplicit false

namespace Yalantinglibs.Util.TimeUtil

open Calendar

/-! ### The formats -/

/-- `component_of_time_format` -/
inductive Component
  | dayName | day | monthName | month | year | hour | minute | second | secondDecimalPart
  | sp | comma | colon | hyphen | dot | gmt | t | z | ending
  deriving DecidableEq

/-- `time_format` -/
inductive TimeFormat
  | http | utc | utcWithoutPunctuation
  deriving DecidableEq

open Component in
/-- The array goes on behind `ending`, but is not read there. -/
def httpTimeFormat : List Component :=
  [dayName, comma, sp, day, sp, monthName, sp, year, sp, hour, colon, minute, colon, second, sp,
    gmt, ending]

open Component in
def utcTimeFormat : List Component :=
  [year, hyphen, month, hyphen, day, t, hour, colon, minute, colon, second, dot, secondDecimalPart,
    z, ending]

open Component in
def utcTimeWithoutPunctuationFormat : List Component :=
  [year, month, day, t, hour, minute, second, secondDecimalPart, z, ending]

def getFormat : TimeFormat → List Component
  | .http => httpTimeFormat
  | .utc => utcTimeFormat
  | .utcWithoutPunctuation => utcTimeWithoutPunctuationFormat

def lenOfHttpTimeFormat : ℤ := 3 + 1 + 1 + 2 + 1 + 3 + 1 + 4 + 1 + 2 + 1 + 2 + 1 + 2 + 1 + 3

def lenOfUtcTimeFormat : ℤ := 4 + 1 + 2 + 1 + 2 + 1 + 2 + 1 + 2 + 1 + 2 + 1 + 0 + 1

def lenOfUtcTimeWithoutPunctuationFormat : ℤ := 4 + 2 + 2 + 1 + 2 + 2 + 2 + 0 + 1

/-! ### Names -/

/-- The entries `-1` are `none`. -/
def monthTable : List (Option ℕ) :=
  [some 11, some 4, none, some 7, none, none, none, some 0, some 6, some 3, some 5, some 2, some 10,
    some 8, none, some 9, some 1]

def weekTable : List (Option ℕ) :=
  [some 2, some 4, some 3, some 1, none, none, none, some 6, none, none, none, none, some 0, none,
    none, some 5, none]

/-- `c & ~0x20`: a `char` has a sign, and is promoted to `int`. -/
def upper (c : UInt8) : BitVec 32 := c.toBitVec.signExtend 32 &&& ~~~0x20#32

/-- The index into a table: the `int` is converted to `size_t`. -/
def tableIndex (hash : BitVec 32) : ℕ := (hash.signExtend 64).toNat % 17

def getDayIndex (str : Bytes) : Option ℕ :=
  weekTable.getD (tableIndex (upper (str.getD 0 0) ^^^ upper (str.getD 2 0))) none

def getMonthIndex (str : Bytes) : Option ℕ :=
  monthTable.getD (tableIndex (upper (str.getD 1 0) + upper (str.getD 2 0))) none

/-! ### The calendar of the code -/

def daysBefore : List ℕ :=
  [0,
    31,
    31 + 28,
    31 + 28 + 31,
    31 + 28 + 31 + 30,
    31 + 28 + 31 + 30 + 31,
    31 + 28 + 31 + 30 + 31 + 30,
    31 + 28 + 31 + 30 + 31 + 30 + 31,
    31 + 28 + 31 + 30 + 31 + 30 + 31 + 31,
    31 + 28 + 31 + 30 + 31 + 30 + 31 + 31 + 30,
    31 + 28 + 31 + 30 + 31 + 30 + 31 + 31 + 30 + 31,
    31 + 28 + 31 + 30 + 31 + 30 + 31 + 31 + 30 + 31 + 30,
    31 + 28 + 31 + 30 + 31 + 30 + 31 + 31 + 30 + 31 + 30 + 31]

def isLeapYear (year : ℕ) : Bool := year % 4 = 0 && (year % 100 ≠ 0 || year % 400 = 0)

def daysIn (m year : ℕ) : ℕ :=
  if some m = getMonthIndex (ascii "Feb") ∧ isLeapYear year then 29
  else daysBefore.getD (m + 1) 0 - daysBefore.getD m 0

def absoluteZeroYear : ℤ := -292277022399

def internalYear : ℤ := 1

/-- `absolute_to_internal`; a year has 365.2425 days of 86400 seconds. -/
def absoluteToInternal : ℤ := (absoluteZeroYear - internalYear) * 31556952

def unixToInternal : ℤ := (1969 * 365 + 1969 / 4 - 1969 / 100 + 1969 / 400) * 86400

def internalToUnix : ℤ := -unixToInternal

def daysSinceEpoch (year : ℕ) : UInt64 :=
  let y := UInt64.ofInt (year - absoluteZeroYear)
  let n := y / 400
  let y := y - 400 * n
  let d := (365 * 400 + 97) * n
  let n := y / 100
  let y := y - 100 * n
  let d := d + (365 * 100 + 24) * n
  let n := y / 4
  let y := y - 4 * n
  let d := d + (365 * 4 + 1) * n
  let n := y
  d + 365 * n

def fasterMktime (year month day hour min sec : ℕ) (dayOfWeek : Option ℕ) : Option ℤ :=
  let d := daysSinceEpoch year
  let d := d + UInt64.ofNat (daysBefore.getD month 0)
  -- February 29
  let d := if isLeapYear year ∧ (getMonthIndex (ascii "Mar")).getD 0 ≤ month then d + 1 else d
  let d := d + UInt64.ofNat (day - 1)
  let abs := d * 86400
  let abs := abs + UInt64.ofNat (hour * 3600 + min * 60 + sec)
  let wday := (abs + UInt64.ofNat ((getDayIndex (ascii "Mon")).getD 0) * 86400) % 604800 / 86400
  if dayOfWeek ≠ none ∧ dayOfWeek ≠ some wday.toNat then none
  else some (abs.toInt64 + Int64.ofInt (absoluteToInternal + internalToUnix)).toInt

/-! ### Reading -/

/-- `'0' <= c && c <= '9'` -/
def IsDigit (b : UInt8) : Prop := '0'.toUInt8 ≤ b ∧ b ≤ '9'.toUInt8

instance (b : UInt8) : Decidable (IsDigit b) := inferInstanceAs (Decidable (_ ∧ _))

/-- The digits of a number: none if another character is among them. -/
def getDigitLoop : Bytes → ℕ → Option ℕ
  | [], num => some num
  | b :: bs, num =>
    if IsDigit b then getDigitLoop bs (num * 10 + (b.toNat - '0'.toUInt8.toNat)) else none

def getDigit (sv : Bytes) (width : ℕ) : Option ℕ := getDigitLoop (sv.take width) 0

/-- What has been read. Each format has components for all the fields, but for the day of the
week. -/
structure Reading where
  processed : ℕ := 0
  ignored : ℕ := 0
  year : ℕ := 0
  month : ℕ := 0
  day : ℕ := 0
  hour : ℕ := 0
  min : ℕ := 0
  sec : ℕ := 0
  dayOfWeek : Option ℕ := none

/-- The character of a component that is only one. -/
def Component.mark : Component → UInt8
  | .sp => ' '.toUInt8
  | .comma => ','.toUInt8
  | .colon => ':'.toUInt8
  | .hyphen => '-'.toUInt8
  | .dot => '.'.toUInt8
  | .t => 'T'.toUInt8
  | .z => 'Z'.toUInt8
  | _ => 0

/-- The next characters, if that many are left. -/
def nextChars (sv : Bytes) (len : ℤ) (r : Reading) (n : ℕ) : Option Bytes :=
  if len - r.processed < n then none else some ((sv.drop r.processed).take n)

/-- Read a component of the string, of which the first `len` characters count. -/
def readComponent (sv : Bytes) (len : ℤ) (comp : Component) (r : Reading) : Option Reading :=
  match comp with
  | .ending => some r
  | .colon | .comma | .sp | .hyphen | .dot | .t | .z => do
    let c ← nextChars sv len r 1
    if c.headD 0 ≠ comp.mark then none
    else some { r with processed := r.processed + 1 }
  | .year => do
    let chars ← nextChars sv len r 4
    let year ← getDigit chars 4
    some { r with year := year, processed := r.processed + 4 }
  | .monthName => do
    let chars ← nextChars sv len r 3
    let month ← getMonthIndex chars
    some { r with month := month, processed := r.processed + 3 }
  | .hour => do
    let chars ← nextChars sv len r 2
    let digit ← getDigit chars 2
    if digit ≥ 24 then none
    else some { r with hour := digit, processed := r.processed + 2 }
  | .minute => do
    let chars ← nextChars sv len r 2
    let digit ← getDigit chars 2
    if digit ≥ 60 then none
    else some { r with min := digit, processed := r.processed + 2 }
  | .month => do
    let chars ← nextChars sv len r 2
    let digit ← getDigit chars 2
    if digit < 1 ∨ digit > 12 then none
    else some { r with month := digit - 1, processed := r.processed + 2 }
  | .second => do
    let chars ← nextChars sv len r 2
    let digit ← getDigit chars 2
    if digit ≥ 60 then none
    else some { r with sec := digit, processed := r.processed + 2 }
  | .day => do
    let chars ← nextChars sv len r 2
    let digit ← getDigit chars 2
    some { r with day := digit, processed := r.processed + 2 }
  | .dayName => do
    let chars ← nextChars sv len r 3
    let dayOfWeek ← getDayIndex chars
    some { r with dayOfWeek := some dayOfWeek, processed := r.processed + 3 }
  | .gmt => do
    let chars ← nextChars sv len r 3
    if chars ≠ ascii "GMT" then none
    else some { r with processed := r.processed + 3 }
  | .secondDecimalPart =>
    let n := ((sv.take len.toNat).drop r.processed).takeWhile fun b => IsDigit b
    if n = [] then none
    else some { r with processed := r.processed + n.length, ignored := r.ignored + n.length }

/-- The loop over a format. -/
def travel (sv : Bytes) (len : ℤ) : List Component → Reading → Option Reading
  | [], r => some r
  | .ending :: _, r => some r
  | comp :: comps, r => (readComponent sv len comp r).bind (travel sv len comps)

/-- `get_timestamp`. The length of the string is converted to `int`. -/
def getTimestamp (format : TimeFormat) (gmtTimeStr : Bytes) : Option ℤ := do
  let len := (gmtTimeStr.length : ℤ).bmod (2 ^ 32)
  let r ← travel gmtTimeStr len (getFormat format) { }
  if (r.processed : ℤ) ≠ len ∨ (r.processed : ℤ) ≠ lenOfHttpTimeFormat ∧
      (r.processed - r.ignored : ℤ) ≠ lenOfUtcTimeFormat ∧
      (r.processed - r.ignored : ℤ) ≠ lenOfUtcTimeWithoutPunctuationFormat then none
  else if r.day < 1 ∨ r.day > daysIn r.month r.year then none
  else fasterMktime r.year r.month r.day r.hour r.min r.sec r.dayOfWeek

/-! ### The seconds of a date and time -/

section Seconds

theorem getMonthIndex_feb : getMonthIndex (ascii "Feb") = some 1 := by decide

theorem getMonthIndex_mar : getMonthIndex (ascii "Mar") = some 2 := by decide

theorem getDayIndex_mon : getDayIndex (ascii "Mon") = some 1 := by decide

theorem isLeapYear_eq (year : ℕ) : isLeapYear year = isLeap year := by
  rw [Bool.eq_iff_iff, isLeapYear, isLeap]
  simp only [Bool.and_eq_true, Bool.or_eq_true, decide_eq_true_eq]
  omega

/-- The month has the days that it has in the calendar. -/
theorem daysIn_eq {m : ℕ} (hm : m < 12) (year : ℕ) :
    daysIn m year = (monthLengths (isLeap year)).getD m 0 := by
  have h : ∀ m < 12, ∀ leap, (if some m = getMonthIndex (ascii "Feb") ∧ leap = true then 29
      else daysBefore.getD (m + 1) 0 - daysBefore.getD m 0) = (monthLengths leap).getD m 0 := by
    rw [getMonthIndex_feb]
    decide
  rw [← h m hm, daysIn, isLeapYear_eq]

/-- The days before the month, with the one at the end of February. -/
theorem daysBefore_eq {m : ℕ} (hm : m < 12) (leap : Bool) :
    Date.daysBeforeMonth leap m =
      daysBefore.getD m 0 + if leap = true ∧ 2 ≤ m then 1 else 0 := by
  have h : ∀ m < 12, ∀ leap, Date.daysBeforeMonth leap m =
      daysBefore.getD m 0 + if leap = true ∧ 2 ≤ m then 1 else 0 := by decide
  exact h m hm leap

/-- Take off the whole cycles. -/
theorem sub_cycles (y k : ℕ) :
    UInt64.ofNat y - UInt64.ofNat k * UInt64.ofNat (y / k) = UInt64.ofNat (y % k) := by
  rw [← UInt64.ofNat_mul, ← UInt64.ofNat_sub (Nat.mul_div_le y k), ← Nat.mod_eq_sub]

/-- The days of the cycles, with nothing that wraps. -/
theorem daysSinceEpoch_cycles {y : ℕ} (hy : y < 2 ^ 40) (year : ℕ)
    (h : UInt64.ofInt (year - absoluteZeroYear) = UInt64.ofNat y) : daysSinceEpoch year =
      UInt64.ofNat (146097 * (y / 400) + 36524 * (y % 400 / 100) + 1461 * (y % 400 % 100 / 4) +
        365 * (y % 400 % 100 % 4)) := by
  have h400 : UInt64.ofNat y / 400 = UInt64.ofNat (y / 400) :=
    (UInt64.ofNat_div (b := 400) (by omega) (by decide)).symm
  have h100 : UInt64.ofNat (y % 400) / 100 = UInt64.ofNat (y % 400 / 100) :=
    (UInt64.ofNat_div (b := 100) (by omega) (by decide)).symm
  have h4 : UInt64.ofNat (y % 400 % 100) / 4 = UInt64.ofNat (y % 400 % 100 / 4) :=
    (UInt64.ofNat_div (b := 4) (by omega) (by decide)).symm
  have hr400 : UInt64.ofNat y - 400 * UInt64.ofNat (y / 400) = UInt64.ofNat (y % 400) :=
    sub_cycles y 400
  have hr100 : UInt64.ofNat (y % 400) - 100 * UInt64.ofNat (y % 400 / 100) =
      UInt64.ofNat (y % 400 % 100) := sub_cycles (y % 400) 100
  have hr4 : UInt64.ofNat (y % 400 % 100) - 4 * UInt64.ofNat (y % 400 % 100 / 4) =
      UInt64.ofNat (y % 400 % 100 % 4) := sub_cycles (y % 400 % 100) 4
  rw [daysSinceEpoch, h, h400, hr400, h100, hr100, h4, hr4]
  simp only [UInt64.ofNat_add, UInt64.ofNat_mul]
  rfl

/-- The days are counted as in the calendar, from a year that ends a cycle on. -/
theorem daysSinceEpoch_eq {year : ℕ} (h : year < 10000) : daysSinceEpoch year =
    UInt64.ofNat (daysBeforeYear year + 106751990353932).toNat := by
  obtain ⟨y, hy⟩ : ∃ y, y = year + 292277022399 := ⟨_, rfl⟩
  have hzero : UInt64.ofInt (year - absoluteZeroYear) = UInt64.ofNat y := by
    have hint : ((year - absoluteZeroYear) % 2 ^ 64).toNat = y := by
      rw [absoluteZeroYear]
      omega
    rw [UInt64.ofInt, hint]
  have hdays : (daysBeforeYear year + 106751990353932).toNat = 146097 * (y / 400) +
      36524 * (y % 400 / 100) + 1461 * (y % 400 % 100 / 4) + 365 * (y % 400 % 100 % 4) := by
    rw [daysBeforeYear]
    omega
  rw [daysSinceEpoch_cycles (by omega) year hzero, hdays]

/-- A number of seconds that is not too large is found in its week. -/
theorem weekday_ofNat {n : ℕ} (hn : n + 86400 < 2 ^ 64) :
    ((UInt64.ofNat n + UInt64.ofNat 1 * 86400) % 604800 / 86400).toNat =
      (n + 86400) % 604800 / 86400 := by
  have hsum : UInt64.ofNat n + UInt64.ofNat 1 * 86400 = UInt64.ofNat (n + 86400) := by
    rw [UInt64.ofNat_add]
    rfl
  have hmod : UInt64.ofNat (n + 86400) % 604800 = UInt64.ofNat ((n + 86400) % 604800) :=
    (UInt64.ofNat_mod (b := 604800) hn (by decide)).symm
  have hdiv : UInt64.ofNat ((n + 86400) % 604800) / 86400 =
      UInt64.ofNat ((n + 86400) % 604800 / 86400) :=
    (UInt64.ofNat_div (b := 86400) (by omega) (by decide)).symm
  rw [hsum, hmod, hdiv, UInt64.toNat_ofNat']
  omega

/-- The seconds from the zero year on, seen as signed, are moved to 1970. -/
theorem toInt64_add_eq {n : ℕ} {t : ℤ} (hn : (n : ℤ) = t + 9223372028715321600) (ht : -2 ^ 63 ≤ t)
    (ht' : t < 2 ^ 63) : ((UInt64.ofNat n).toInt64 +
      Int64.ofInt (absoluteToInternal + internalToUnix)).toInt = t := by
  have hsum : (n : ℤ) + (absoluteToInternal + internalToUnix) = t := by
    rw [absoluteToInternal, absoluteZeroYear, internalYear, internalToUnix, unixToInternal]
    omega
  rw [UInt64.toInt64_ofNat', ← Int64.ofInt_eq_ofNat, ← Int64.ofInt_add, hsum,
    Int64.toInt_ofInt_of_le ht ht']

/-- The days up to a date. -/
theorem days_eq (d : Date) {year : ℕ} (hyear : d.year = year) (hlt : year < 10000) :
    (if isLeapYear year ∧ (getMonthIndex (ascii "Mar")).getD 0 ≤ d.month then
        daysSinceEpoch year + UInt64.ofNat (daysBefore.getD d.month 0) + 1
      else daysSinceEpoch year + UInt64.ofNat (daysBefore.getD d.month 0)) +
        UInt64.ofNat (d.day - 1) = UInt64.ofNat (d.dayNumber + 106751990353932).toNat := by
  have hpos := d.day_pos
  have hzero := daysBeforeYear_mono (show 0 ≤ d.year by omega)
  have h0 : daysBeforeYear 0 = -366 := by decide
  have hmonth := daysBefore_eq d.month_lt (isLeap d.year)
  rw [isLeapYear_eq, ← hyear, getMonthIndex_mar, Option.getD_some, daysSinceEpoch_eq hlt, ← hyear]
  by_cases hleap : isLeap d.year = true ∧ 2 ≤ d.month
  · rw [if_pos hleap] at hmonth ⊢
    have hdays : (d.dayNumber + 106751990353932).toNat =
        (daysBeforeYear d.year + 106751990353932).toNat + daysBefore.getD d.month 0 + 1 +
          (d.day - 1) := by
      rw [Date.dayNumber]
      omega
    rw [hdays, UInt64.ofNat_add, UInt64.ofNat_add, UInt64.ofNat_add]
    rfl
  · rw [if_neg hleap] at hmonth ⊢
    have hdays : (d.dayNumber + 106751990353932).toNat =
        (daysBeforeYear d.year + 106751990353932).toNat + daysBefore.getD d.month 0 +
          (d.day - 1) := by
      rw [Date.dayNumber]
      omega
    rw [hdays, UInt64.ofNat_add, UInt64.ofNat_add]

/-- The time that is returned is the one in the calendar, if the day of the week is right. -/
theorem fasterMktime_eq (t : DateTime) {year : ℕ} (hyear : t.date.year = year)
    (hlt : year < 10000) (dayOfWeek : Option ℕ) :
    fasterMktime year t.date.month t.date.day t.hour t.minute t.second dayOfWeek =
      if dayOfWeek ≠ none ∧ dayOfWeek ≠ some t.date.weekday then none else some t.toSeconds := by
  -- nothing wraps, since the dates lie in ten thousand years
  have hbounds := t.date.dayNumber_bounds
  have hlow := daysBeforeYear_mono (show 0 ≤ t.date.year by omega)
  have hhigh := daysBeforeYear_mono (show t.date.year + 1 ≤ 10000 by omega)
  have h0 : daysBeforeYear 0 = -366 := by decide
  have h10000 : daysBeforeYear 10000 = 3652059 := by decide
  have hhour := t.hour_lt
  have hminute := t.minute_lt
  have hsecond := t.second_lt
  obtain ⟨n, hn⟩ : ∃ n, n = (t.date.dayNumber + 106751990353932).toNat * 86400 +
      (t.hour * 3600 + t.minute * 60 + t.second) := ⟨_, rfl⟩
  have habs : UInt64.ofNat (t.date.dayNumber + 106751990353932).toNat * 86400 +
      UInt64.ofNat (t.hour * 3600 + t.minute * 60 + t.second) = UInt64.ofNat n := by
    rw [hn, UInt64.ofNat_add _ (t.hour * 3600 + t.minute * 60 + t.second), UInt64.ofNat_mul]
    rfl
  have hweekday : (n + 86400) % 604800 / 86400 = t.date.weekday := by
    rw [Date.weekday]
    omega
  rw [fasterMktime, days_eq t.date hyear hlt, habs, getDayIndex_mon, Option.getD_some,
    weekday_ofNat (by omega), hweekday,
    toInt64_add_eq (show (n : ℤ) = t.toSeconds + _ by rw [DateTime.toSeconds, epochDay]; omega)
      (by rw [DateTime.toSeconds, epochDay]; omega) (by rw [DateTime.toSeconds, epochDay]; omega)]

end Seconds

end Yalantinglibs.Util.TimeUtil
