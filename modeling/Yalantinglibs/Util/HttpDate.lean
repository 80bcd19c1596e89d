import Yalantinglibs.Util.TimestampText

/-!
# HTTP dates

Times of the years 1970 to 9999 are written as HTTP dates and read back. A string that is read as a
time is mostly the text of that time, with the right names and nothing behind it. But the names are
looked up by two of their characters, without their case, so that others are taken for them, and a
rest of some multiple of 2^32 characters is not seen.

## Main definitions

* `InYears` — the times
* `Misspelled` — the strings that are read as a time without being its text

## Main results

* `httpDate_iff` — each time is read back, a string is only read as its own time if it is not
  misspelled, and the texts of the other formats are read as their times
-/

set_option autoImplicit false

namespace Yalantinglibs.Util.TimeUtil

open Calendar

/-- Times of the years 1970 to 9999. -/
def InYears (x : ℤ) : Prop :=
  1970 ≤ (dateTimeOf x).date.year ∧ (dateTimeOf x).date.year ≤ 9999

instance (x : ℤ) : Decidable (InYears x) := inferInstanceAs (Decidable (_ ∧ _))

/-- The text of a time, with other names that the tables have at the same places, or with more
behind it. -/
def Misspelled (s : Bytes) : Prop :=
  ∃ x dayName monthName rest, InYears x ∧
    (dayName.length = 3 ∧ getDayIndex dayName = getDayIndex (dayNameOf (dateTimeOf x))) ∧
    (monthName.length = 3 ∧ getMonthIndex monthName = getMonthIndex (monthNameOf (dateTimeOf x))) ∧
    s = gmtTextWith dayName monthName (dateTimeOf x) ++ rest ∧ 2 ^ 32 ∣ rest.length ∧
    (dayName ≠ dayNameOf (dateTimeOf x) ∨ monthName ≠ monthNameOf (dateTimeOf x) ∨ rest ≠ [])

theorem dayNameOf_spec (t : DateTime) :
    (dayNameOf t).length = 3 ∧ getDayIndex (dayNameOf t) = some t.date.weekday := by
  have h : ∀ i < 7, (wdayNames.getD i []).length = 3 ∧
    getDayIndex (wdayNames.getD i []) = some i := by decide
  exact h _ t.date.weekday_lt

theorem monthNameOf_spec (t : DateTime) :
    (monthNameOf t).length = 3 ∧ getMonthIndex (monthNameOf t) = some t.date.month := by
  have h : ∀ i < 12, (ymonNames.getD i []).length = 3 ∧
    getMonthIndex (ymonNames.getD i []) = some i := by decide
  exact h _ t.date.month_lt

theorem InYears.fourDigits {x : ℤ} (h : InYears x) : FourDigits (dateTimeOf x) := by
  have h' := h
  rw [InYears] at h'
  rw [FourDigits]
  omega

/-- Each time is read back from its text. -/
theorem getTimestamp_getGmtTimeStrOf {x : ℤ} (h : InYears x) :
    getTimestamp .http (getGmtTimeStrOf x) = some x := by
  rw [getGmtTimeStrOf_eq, getTimestamp_http_iff]
  exact ⟨dateTimeOf x, _, _, [], h.fourDigits, dayNameOf_spec _, monthNameOf_spec _,
    (List.append_nil _).symm, dvd_zero _, toSeconds_dateTimeOf x⟩

/-- The strings that are read as a time of these years. -/
theorem getTimestamp_inYears_iff {s : Bytes} {x : ℤ} (h : InYears x) :
    getTimestamp .http s = some x ↔ ∃ dayName monthName rest,
      (dayName.length = 3 ∧ getDayIndex dayName = getDayIndex (dayNameOf (dateTimeOf x))) ∧
      (monthName.length = 3 ∧
        getMonthIndex monthName = getMonthIndex (monthNameOf (dateTimeOf x))) ∧
      s = gmtTextWith dayName monthName (dateTimeOf x) ++ rest ∧ 2 ^ 32 ∣ rest.length := by
  rw [getTimestamp_http_iff, (dayNameOf_spec _).2, (monthNameOf_spec _).2]
  constructor
  · rintro ⟨t, dayName, monthName, rest, -, hday, hmonth, hs, hdvd, rfl⟩
    rw [dateTimeOf_toSeconds]
    exact ⟨dayName, monthName, rest, hday, hmonth, hs, hdvd⟩
  · rintro ⟨dayName, monthName, rest, hday, hmonth, hs, hdvd⟩
    exact ⟨dateTimeOf x, dayName, monthName, rest, h.fourDigits, hday, hmonth, hs, hdvd,
      toSeconds_dateTimeOf x⟩

/-- The names, and what comes behind a text, can be told from it. -/
theorem gmtTextWith_inj {t : DateTime} {dayName monthName rest : Bytes}
    (hday : dayName.length = 3) (hmonth : monthName.length = 3)
    (h : gmtTextWith dayName monthName t ++ rest = gmtText t) :
    dayName = dayNameOf t ∧ monthName = monthNameOf t ∧ rest = [] := by
  have hday' := (dayNameOf_spec t).1
  have hmonth' := (monthNameOf_spec t).1
  rw [gmtText] at h
  have hlength := congrArg List.length h
  rw [List.length_append, length_gmtTextWith hday hmonth,
    length_gmtTextWith hday' hmonth'] at hlength
  obtain rfl := List.eq_nil_of_length_eq_zero (show rest.length = 0 by omega)
  rw [List.append_nil] at h
  simp only [gmtTextWith, List.append_assoc] at h
  obtain ⟨h₁, h⟩ := List.append_inj h (hday.trans hday'.symm)
  have h₂ := List.append_cancel_left (List.append_cancel_left (List.append_cancel_left h))
  exact ⟨h₁, (List.append_inj h₂ (hmonth.trans hmonth'.symm)).1, rfl⟩

/-- A string is read as no time but the one that it is the text of if it is not misspelled. -/
theorem eq_getGmtTimeStrOf_iff (s : Bytes) :
    (∀ x, InYears x → getTimestamp .http s = some x → s = getGmtTimeStrOf x) ↔ ¬Misspelled s := by
  constructor
  · rintro h ⟨x, dayName, monthName, rest, hx, hday, hmonth, hs, hdvd, hne⟩
    have heq := h x hx
      ((getTimestamp_inYears_iff hx).mpr ⟨dayName, monthName, rest, hday, hmonth, hs, hdvd⟩)
    rw [getGmtTimeStrOf_eq, hs] at heq
    obtain ⟨h₁, h₂, h₃⟩ := gmtTextWith_inj hday.1 hmonth.1 heq
    obtain hne | hne | hne := hne
    · exact hne h₁
    · exact hne h₂
    · exact hne h₃
  · intro h x hx hread
    obtain ⟨dayName, monthName, rest, hday, hmonth, hs, hdvd⟩ :=
      (getTimestamp_inYears_iff hx).mp hread
    by_contra hne
    refine h ⟨x, dayName, monthName, rest, hx, hday, hmonth, hs, hdvd, ?_⟩
    by_contra hnames
    push Not at hnames
    obtain ⟨h₁, h₂, h₃⟩ := hnames
    rw [getGmtTimeStrOf_eq, hs, h₁, h₂, h₃, List.append_nil] at hne
    exact hne rfl

/-- Every time is read back from its text; a string is only read as the time that it is the text of
if, and only if, it is not misspelled; the strings of the other formats are read as their times. -/
theorem httpDate_iff (s : Bytes) :
    (∀ x, InYears x → getTimestamp .http (getGmtTimeStrOf x) = some x) ∧
      ((∀ x, InYears x → getTimestamp .http s = some x → s = getGmtTimeStrOf x) ↔ ¬Misspelled s) ∧
      (∀ x, getTimestamp .utc s = some x ↔ IsUtcText utcTextOf s x) ∧
      ∀ x, getTimestamp .utcWithoutPunctuation s = some x ↔
        IsUtcText utcTextWithoutPunctuationOf s x :=
  ⟨fun _ => getTimestamp_getGmtTimeStrOf, eq_getGmtTimeStrOf_iff s, fun _ => getTimestamp_utc_iff,
    fun _ => getTimestamp_utcWithoutPunctuation_iff⟩

/-- A name is taken for another one that it has its first and last letter in common with, in
whatever case. -/
theorem httpDate_mxn : ¬∀ x, InYears x →
    getTimestamp .http (ascii "mxn, 02 Jan 2006 15:04:05 GMT") = some x →
      ascii "mxn, 02 Jan 2006 15:04:05 GMT" = getGmtTimeStrOf x := by
  intro h
  exact absurd (h 1136214245 (by decide) (by decide)) (by decide)

end Yalantinglibs.Util.TimeUtil
