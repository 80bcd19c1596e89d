import Yalantinglibs.Data.Ascii
import Yalantinglibs.Data.Calendar

/-!
# The texts of times

`util/time_util.h`. A time is broken down as UTC and written by a format, in which a percent sign
and a letter stand for a part of it, followed by the character that comes next in the format.

`gmtime_r` is part of the C library; it is `dateTimeOf` with the offsets of `std::tm`.

## Main definitions

* `Tm`, `gmtimeSafe` — the time, broken down
* `getLocalTimeStrOf`, `getGmtTimeStrOf` — the texts
* `gmtText`, `localText` — what they are for a date and time

## Main results

* `getGmtTimeStrOf_eq`, `getLocalTimeStrOf_eq` — the texts are these
-/

set_option autoImplicit false

namespace Yalantinglibs.Util.TimeUtil

open Calendar

/-! ### Broken-down times -/

/-- `std::tm`. Years are counted from 1900, months and days of the week from 0. -/
structure Tm where
  tmSec : ℕ
  tmMin : ℕ
  tmHour : ℕ
  tmMday : ℕ
  tmMon : ℕ
  tmYear : ℤ
  tmWday : ℕ

/-- The fields of `std::tm` for a date and time. -/
def tmOf (t : DateTime) : Tm where
  tmSec := t.second
  tmMin := t.minute
  tmHour := t.hour
  tmMday := t.date.day
  tmMon := t.date.month
  tmYear := t.date.year - 1900
  tmWday := t.date.weekday

def gmtimeSafe (timer : ℤ) : Tm := tmOf (dateTimeOf timer)

/-! ### Writing -/

def digits : Bytes := ascii "0123456789"

def wdayNames : List Bytes :=
  [ascii "Sun", ascii "Mon", ascii "Tue", ascii "Wed", ascii "Thu", ascii "Fri", ascii "Sat"]

def ymonNames : List Bytes :=
  [ascii "Jan", ascii "Feb", ascii "Mar", ascii "Apr", ascii "May", ascii "Jun", ascii "Jul",
    ascii "Aug", ascii "Sep", ascii "Oct", ascii "Nov", ascii "Dec"]

/-- The last digits of a number. They are written from the last one on. -/
def lastDigits : ℕ → ℕ → Bytes
  | 0, _ => []
  | n + 1, num => lastDigits n (num / 10) ++ [digits.getD (num % 10) 0]

def toInt (n num : ℕ) (c : UInt8) : Bytes := lastDigits n num ++ [c]

def toYear (year : ℤ) (c : UInt8) : Bytes := toInt 4 year.toNat c
def toMonth (month : ℕ) (c : UInt8) : Bytes := toInt 2 month c
def toDay (day : ℕ) (c : UInt8) : Bytes := toInt 2 day c
def toHour (hour : ℕ) (c : UInt8) : Bytes := toInt 2 hour c
def toMin (min : ℕ) (c : UInt8) : Bytes := toInt 2 min c
def toSec (sec : ℕ) (c : UInt8) : Bytes := toInt 2 sec c

/-- What is written for a letter behind a percent sign, and the character `c` behind it. -/
def writeItem (hour : ℕ) (tm : Tm) (letter c : UInt8) : Bytes :=
  if letter = 'Y'.toUInt8 then toYear (tm.tmYear + 1900) c
  else if letter = 'm'.toUInt8 then toMonth (tm.tmMon + 1) c
  else if letter = 'd'.toUInt8 then toDay tm.tmMday c
  else if letter = 'H'.toUInt8 then toHour (tm.tmHour + hour) c
  else if letter = 'M'.toUInt8 then toMin tm.tmMin c
  else if letter = 'S'.toUInt8 then toSec tm.tmSec c
  else if letter = 'a'.toUInt8 then (wdayNames.getD tm.tmWday []).take 3 ++ [c, ' '.toUInt8]
  else if letter = 'b'.toUInt8 then (ymonNames.getD tm.tmMon []).take 3 ++ [c]
  else []

/-- The loop over the format. Characters that no percent sign comes before are passed over: they are
written as the `c` of what they follow. -/
def writeItems (hour : ℕ) (tm : Tm) : Bytes → Bytes
  | [] => []
  | [_] => []
  | p :: letter :: rest =>
    if p = '%'.toUInt8 then
      writeItem hour tm letter (rest.headD '0'.toUInt8) ++ writeItems hour tm rest
    else writeItems hour tm (letter :: rest)

/-- `get_local_time_str` with a buffer and a format; the hour is a template parameter. The character
behind the last item is not part of the text. -/
def getLocalTimeStrOf (hour : ℕ) (t : ℤ) (format : Bytes) : Bytes :=
  (writeItems hour (gmtimeSafe t) format).dropLast

def gmtFormat : Bytes := ascii "%a, %d %b %Y %H:%M:%S"

def localFormat : Bytes := ascii "%Y-%m-%d %H:%M:%S"

/-- `get_gmt_time_str` with a buffer. -/
def getGmtTimeStrOf (t : ℤ) : Bytes := getLocalTimeStrOf 0 t gmtFormat ++ ascii " GMT"

/-! ### The texts -/

/-- The text of an HTTP date, with the names of the day and the month. -/
def gmtTextWith (dayName monthName : Bytes) (t : DateTime) : Bytes :=
  dayName ++ ascii ", " ++ lastDigits 2 t.date.day ++ ascii " " ++ monthName ++ ascii " " ++
    lastDigits 4 t.date.year.toNat ++ ascii " " ++ lastDigits 2 t.hour ++ ascii ":" ++
    lastDigits 2 t.minute ++ ascii ":" ++ lastDigits 2 t.second ++ ascii " GMT"

def dayNameOf (t : DateTime) : Bytes := wdayNames.getD t.date.weekday []

def monthNameOf (t : DateTime) : Bytes := ymonNames.getD t.date.month []

/-- The text of an HTTP date. -/
def gmtText (t : DateTime) : Bytes := gmtTextWith (dayNameOf t) (monthNameOf t) t

/-- The text of a log record, with the hour. -/
def localTextWith (hour : ℕ) (t : DateTime) : Bytes :=
  lastDigits 4 t.date.year.toNat ++ ascii "-" ++ lastDigits 2 (t.date.month + 1) ++ ascii "-" ++
    lastDigits 2 t.date.day ++ ascii " " ++ lastDigits 2 hour ++ ascii ":" ++
    lastDigits 2 t.minute ++ ascii ":" ++ lastDigits 2 t.second

/-- The text of a log record. -/
def localText (t : DateTime) : Bytes := localTextWith t.hour t

theorem take_dayNameOf (t : DateTime) : (dayNameOf t).take 3 = dayNameOf t := by
  have h : ∀ i < 7, (wdayNames.getD i []).take 3 = wdayNames.getD i [] := by decide
  exact h _ t.date.weekday_lt

theorem take_monthNameOf (t : DateTime) : (monthNameOf t).take 3 = monthNameOf t := by
  have h : ∀ i < 12, (ymonNames.getD i []).take 3 = ymonNames.getD i [] := by decide
  exact h _ t.date.month_lt

section Items

variable (hour : ℕ) (tm : Tm)

/-- An item of a format, with the character behind it. -/
theorem writeItems_item (letter c : UInt8) (rest : Bytes) :
    writeItems hour tm (37 :: letter :: c :: rest) =
      writeItem hour tm letter c ++ writeItems hour tm (c :: rest) := by
  rw [writeItems, if_pos (show (37 : UInt8) = '%'.toUInt8 from rfl), List.headD_cons]

/-- The last item of a format. -/
theorem writeItems_last (letter : UInt8) : writeItems hour tm [37, letter] =
    writeItem hour tm letter 48 := by
  rw [writeItems, if_pos (show (37 : UInt8) = '%'.toUInt8 from rfl), writeItems, List.append_nil]
  rfl

/-- Other characters are passed over. -/
theorem writeItems_other {p : UInt8} (hp : p ≠ 37) (q : UInt8) (rest : Bytes) :
    writeItems hour tm (p :: q :: rest) = writeItems hour tm (q :: rest) := by
  have hp' : p ≠ '%'.toUInt8 := hp
  rw [writeItems, if_neg hp']

variable (t : DateTime) (c : UInt8)

theorem writeItem_year : writeItem hour (tmOf t) 89 c =
    lastDigits 4 t.date.year.toNat ++ [c] := by
  rw [← Int.sub_add_cancel t.date.year 1900]
  rfl

theorem writeItem_month : writeItem hour (tmOf t) 109 c =
    lastDigits 2 (t.date.month + 1) ++ [c] := rfl

theorem writeItem_day : writeItem hour (tmOf t) 100 c = lastDigits 2 t.date.day ++ [c] := rfl

theorem writeItem_hour : writeItem hour (tmOf t) 72 c = lastDigits 2 (t.hour + hour) ++ [c] := rfl

theorem writeItem_minute : writeItem hour (tmOf t) 77 c = lastDigits 2 t.minute ++ [c] := rfl

theorem writeItem_second : writeItem hour (tmOf t) 83 c = lastDigits 2 t.second ++ [c] := rfl

theorem writeItem_dayName : writeItem hour (tmOf t) 97 c = dayNameOf t ++ [c, 32] :=
  congrArg (· ++ [c, ' '.toUInt8]) (take_dayNameOf t)

theorem writeItem_monthName : writeItem hour (tmOf t) 98 c = monthNameOf t ++ [c] :=
  congrArg (· ++ [c]) (take_monthNameOf t)

end Items

/-- The text of an HTTP date is what its format has written. -/
theorem getGmtTimeStrOf_eq (s : ℤ) : getGmtTimeStrOf s = gmtText (dateTimeOf s) := by
  have hformat : gmtFormat = [37, 97, 44, 32, 37, 100, 32, 37, 98, 32, 37, 89, 32, 37, 72, 58, 37,
    77, 58, 37, 83] := rfl
  have hcomma : ascii ", " = [44, 32] := rfl
  have hspace : ascii " " = [32] := rfl
  have hcolon : ascii ":" = [58] := rfl
  obtain ⟨t, ht⟩ : ∃ t, t = dateTimeOf s := ⟨_, rfl⟩
  have hwritten : writeItems 0 (tmOf t) gmtFormat = (dayNameOf t ++ ascii ", " ++
      lastDigits 2 t.date.day ++ ascii " " ++ monthNameOf t ++ ascii " " ++
      lastDigits 4 t.date.year.toNat ++ ascii " " ++ lastDigits 2 t.hour ++ ascii ":" ++
      lastDigits 2 t.minute ++ ascii ":" ++ lastDigits 2 t.second) ++ [48] := by
    rw [hformat, hcomma, hspace, hcolon]
    simp +decide [writeItems_item, writeItems_other, writeItems_last, writeItem_dayName,
      writeItem_day, writeItem_monthName, writeItem_year, writeItem_hour, writeItem_minute,
      writeItem_second]
  rw [getGmtTimeStrOf, getLocalTimeStrOf, gmtimeSafe, ← ht, hwritten, List.dropLast_concat]
  rfl

/-- So is the text of a log record, with eight more hours. -/
theorem getLocalTimeStrOf_eq (s : ℤ) : getLocalTimeStrOf 8 s localFormat =
    localTextWith ((dateTimeOf s).hour + 8) (dateTimeOf s) := by
  have hformat : localFormat = [37, 89, 45, 37, 109, 45, 37, 100, 32, 37, 72, 58, 37, 77, 58, 37,
    83] := rfl
  have hhyphen : ascii "-" = [45] := rfl
  have hspace : ascii " " = [32] := rfl
  have hcolon : ascii ":" = [58] := rfl
  obtain ⟨t, ht⟩ : ∃ t, t = dateTimeOf s := ⟨_, rfl⟩
  have hwritten : writeItems 8 (tmOf t) localFormat = localTextWith (t.hour + 8) t ++ [48] := by
    rw [hformat, localTextWith, hhyphen, hspace, hcolon]
    simp +decide [writeItems_item, writeItems_other, writeItems_last, writeItem_month,
      writeItem_day, writeItem_year, writeItem_hour, writeItem_minute, writeItem_second]
  rw [getLocalTimeStrOf, gmtimeSafe, ← ht, hwritten, List.dropLast_concat]

end Yalantinglibs.Util.TimeUtil
