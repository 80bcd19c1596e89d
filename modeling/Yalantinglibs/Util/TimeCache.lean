import Yalantinglibs.Data.LastValue
import Yalantinglibs.Util.HttpDate

/-!
# The cached texts of times

`util/time_util.h`, the overloads for a time point. Each keeps the text of the last second in a
thread-local buffer. The second that is kept is 0 at first, while the buffer is empty. The time of a
log record is that of UTC with eight more hours, which are added to the hour that is written.

## Main definitions

* `Statics`, `getGmtTimeStr`, `getLocalTimeStr` — the thread-local variables, and the functions
* `replies` — what a sequence of calls returns
* `correct`, `Meets` — what it should return, and when it does

## Main results

* `replies_iff` — a sequence of calls returns the right texts exactly where each call meets its
  condition
-/

set_option autoImplicit false

namespace Yalantinglibs.Util.TimeUtil

open Calendar

/-! ### The calls -/

/-- `std::chrono::system_clock::time_point` that is not before 1970: a signed count of 64 bits. -/
structure TimePoint where
  nanoseconds : ℕ
  lt : nanoseconds < 2 ^ 63

/-- The duration cast, and `to_time_t`. -/
def TimePoint.seconds (t : TimePoint) : ℤ := (t.nanoseconds / 1000000000 : ℕ)

/-- The thread-local variables of the two functions: `last_sec`, and the text in `buf`. -/
structure Statics where
  gmt : LastValue ℤ Bytes := ⟨0, []⟩
  local_ : LastValue ℤ Bytes := ⟨0, []⟩

def getGmtTimeStr (statics : Statics) (t : TimePoint) : Bytes × Statics :=
  let r := statics.gmt.request getGmtTimeStrOf t.seconds
  (r.1, { statics with gmt := r.2 })

def getLocalTimeStr (statics : Statics) (t : TimePoint) : Bytes × Statics :=
  let r := statics.local_.request (fun s => getLocalTimeStrOf 8 s localFormat) t.seconds
  (r.1, { statics with local_ := r.2 })

/-- A call of one of the functions. -/
inductive Call
  | gmt (t : TimePoint)
  | localTime (t : TimePoint)

def Statics.call (statics : Statics) : Call → Bytes × Statics
  | .gmt t => getGmtTimeStr statics t
  | .localTime t => getLocalTimeStr statics t

/-- What a sequence of calls returns. -/
def replies : Statics → List Call → List Bytes
  | _, [] => []
  | statics, c :: cs => (statics.call c).1 :: replies (statics.call c).2 cs

/-- The text of the second, or that of the second eight hours later. -/
def correct : Call → Bytes
  | .gmt t => gmtText (dateTimeOf t.seconds)
  | .localTime t => localText (dateTimeOf (t.seconds + 8 * 3600))

/-- The seconds that the calls of one function are for. -/
def gmtSeconds (cs : List Call) : List ℤ :=
  cs.filterMap fun
    | .gmt t => some t.seconds
    | .localTime _ => none

def localSeconds (cs : List Call) : List ℤ :=
  cs.filterMap fun
    | .gmt _ => none
    | .localTime t => some t.seconds

/-- What has to hold of a call: it is not for the first second of 1970, unless another second has
been asked of that function before; and the local time is of the same day. -/
def Meets (earlier : List Call) : Call → Prop
  | .gmt t => t.seconds ≠ 0 ∨ ∃ s ∈ gmtSeconds earlier, s ≠ 0
  | .localTime t =>
    (t.seconds ≠ 0 ∨ ∃ s ∈ localSeconds earlier, s ≠ 0) ∧ t.seconds % 86400 < 16 * 3600

/-! ### Eight more hours -/

theorem lastDigits_inj {v v' : ℕ} (hv : v < 100) (hv' : v' < 100)
    (h : lastDigits 2 v = lastDigits 2 v') : v = v' := by
  have hread := (getDigit_eq_some_iff (length_lastDigits 2 v)).mpr ⟨hv, rfl⟩
  have hread' := (getDigit_eq_some_iff (length_lastDigits 2 v)).mpr ⟨hv', h⟩
  rw [hread, Option.some.injEq] at hread'
  exact hread'

/-- The hours are told from the text. -/
theorem hour_of_localTextWith {h h' : ℕ} {t t' : DateTime} (hh : h < 100) (hh' : h' < 100)
    (heq : localTextWith h t = localTextWith h' t') : h = h' := by
  simp only [localTextWith, List.append_assoc] at heq
  have hskip (n v v' : ℕ) (s : String) (u u' : Bytes)
      (heq : lastDigits n v ++ (ascii s ++ u) = lastDigits n v' ++ (ascii s ++ u')) : u = u' :=
    List.append_cancel_left (List.append_inj heq (by rw [length_lastDigits, length_lastDigits])).2
  have hhour := hskip _ _ _ _ _ _ (hskip _ _ _ _ _ _ (hskip _ _ _ _ _ _ heq))
  exact lastDigits_inj hh hh' (List.append_inj hhour (by rw [length_lastDigits,
    length_lastDigits])).1

/-- The text of eight hours later has eight more hours if these are on the same day. -/
theorem localTextWith_add_iff (s : ℤ) :
    localTextWith ((dateTimeOf s).hour + 8) (dateTimeOf s) =
        localText (dateTimeOf (s + 8 * 3600)) ↔ s % 86400 < 16 * 3600 := by
  have hhour : (dateTimeOf s).hour = (s % 86400 / 3600).toNat := rfl
  constructor
  · intro h
    have hlt := (dateTimeOf (s + 8 * 3600)).hour_lt
    have heq := hour_of_localTextWith (by omega) (by omega) h
    omega
  · intro h
    have hday : (s + 8 * 3600) / 86400 = s / 86400 := by omega
    have hhour' : ((s + 8 * 3600) % 86400 / 3600).toNat = (s % 86400 / 3600).toNat + 8 := by omega
    have hminute : (s + 8 * 3600) % 3600 / 60 = s % 3600 / 60 := by omega
    have hsecond : (s + 8 * 3600) % 60 = s % 60 := by omega
    have hshift : dateTimeOf (s + 8 * 3600) = { dateTimeOf s with
        hour := (dateTimeOf s).hour + 8
        hour_lt := by omega } := by
      ext1
      · change dateOfDay ((s + 8 * 3600) / 86400 + epochDay) = dateOfDay (s / 86400 + epochDay)
        rw [hday]
      · exact hhour'
      · exact congrArg Int.toNat hminute
      · exact congrArg Int.toNat hsecond
    rw [hshift, localText]
    rfl

/-! ### Sequences of calls -/

/-- The thread-local variables after some calls. -/
def staticsAfter (cs : List Call) : Statics :=
  { gmt := LastValue.after getGmtTimeStrOf ⟨0, []⟩ (gmtSeconds cs)
    local_ := LastValue.after (fun s => getLocalTimeStrOf 8 s localFormat) ⟨0, []⟩
      (localSeconds cs) }

/-- A call only changes the variables of its function. -/
theorem call_staticsAfter (cs : List Call) (c : Call) :
    ((staticsAfter cs).call c).2 = staticsAfter (cs ++ [c]) := by
  cases c with
  | gmt t =>
    have hgmt : gmtSeconds (cs ++ [.gmt t]) = gmtSeconds cs ++ [t.seconds] :=
      List.filterMap_append
    have hlocal : localSeconds (cs ++ [.gmt t]) = localSeconds cs ++ [] := List.filterMap_append
    rw [staticsAfter, staticsAfter, hgmt, hlocal, LastValue.after_concat, List.append_nil]
    rfl
  | localTime t =>
    have hgmt : gmtSeconds (cs ++ [.localTime t]) = gmtSeconds cs ++ [] := List.filterMap_append
    have hlocal : localSeconds (cs ++ [.localTime t]) = localSeconds cs ++ [t.seconds] :=
      List.filterMap_append
    rw [staticsAfter, staticsAfter, hgmt, hlocal, LastValue.after_concat, List.append_nil]
    rfl

/-- A second that is 0, and is the only one, is not what has been asked for. -/
theorem not_only_zero_iff {s : ℤ} {ss : List ℤ} :
    ¬(s = 0 ∧ ∀ s' ∈ ss, s' = 0) ↔ s ≠ 0 ∨ ∃ s' ∈ ss, s' ≠ 0 := by
  rw [not_and_or]
  push Not
  rfl

theorem gmtText_ne_nil (t : DateTime) : gmtText t ≠ [] := by
  have hlength := length_gmtTextWith (dayNameOf_spec t).1 (monthNameOf_spec t).1 t
  intro h
  rw [gmtText] at h
  rw [h] at hlength
  cases hlength

theorem localText_ne_nil (t : DateTime) : localText t ≠ [] := by
  intro h
  have hlength := congrArg List.length h
  simp [localText, localTextWith, length_lastDigits] at hlength

/-- After some calls the text is right if the call meets its condition. -/
theorem call_eq_correct_iff (cs : List Call) (c : Call) :
    ((staticsAfter cs).call c).1 = correct c ↔ Meets cs c := by
  cases c with
  | gmt t =>
    have hreply : ((staticsAfter cs).call (.gmt t)).1 =
        if t.seconds = 0 ∧ ∀ s ∈ gmtSeconds cs, s = 0 then [] else getGmtTimeStrOf t.seconds :=
      LastValue.request_after _ _
    rw [hreply, Meets, correct, ← not_only_zero_iff]
    by_cases h : t.seconds = 0 ∧ ∀ s ∈ gmtSeconds cs, s = 0
    · rw [if_pos h, eq_comm]
      exact iff_of_false (gmtText_ne_nil _) (not_not.mpr h)
    · rw [if_neg h]
      exact iff_of_true (getGmtTimeStrOf_eq _) h
  | localTime t =>
    have hreply : ((staticsAfter cs).call (.localTime t)).1 =
        if t.seconds = 0 ∧ ∀ s ∈ localSeconds cs, s = 0 then []
        else getLocalTimeStrOf 8 t.seconds localFormat := LastValue.request_after _ _
    rw [hreply, Meets, correct, ← not_only_zero_iff]
    by_cases h : t.seconds = 0 ∧ ∀ s ∈ localSeconds cs, s = 0
    · rw [if_pos h, eq_comm]
      exact iff_of_false (localText_ne_nil _) fun h' => h'.1 h
    · rw [if_neg h, getLocalTimeStrOf_eq, localTextWith_add_iff, and_iff_right h]

/-- The texts of some calls behind others. The induction is on the calls, with those before. -/
theorem replies_staticsAfter_iff (before calls : List Call) :
    replies (staticsAfter before) calls = calls.map correct ↔
      ∀ earlier c later, calls = earlier ++ c :: later → Meets (before ++ earlier) c := by
  induction calls generalizing before with
  | nil =>
    refine iff_of_true rfl fun earlier c later h => ?_
    exact absurd h.symm (List.append_ne_nil_of_right_ne_nil earlier (List.cons_ne_nil c later))
  | cons c cs ih =>
    rw [replies, List.map_cons, List.cons.injEq, call_eq_correct_iff, call_staticsAfter, ih]
    constructor
    · rintro ⟨hc, hcs⟩ earlier c' later h
      cases earlier with
      | nil =>
        obtain ⟨rfl, -⟩ := List.cons.inj h
        rw [List.append_nil]
        exact hc
      | cons c₀ earlier =>
        obtain ⟨rfl, htail⟩ := List.cons.inj h
        have hmeets := hcs earlier c' later htail
        rwa [List.append_assoc] at hmeets
    · intro h
      refine ⟨?_, fun earlier c' later hcs => ?_⟩
      · have hmeets := h [] c cs rfl
        rwa [List.append_nil] at hmeets
      · rw [List.append_assoc]
        exact h (c :: earlier) c' later (congrArg (c :: ·) hcs)

/-- A sequence of calls returns the right texts exactly where each call meets its condition, with
the calls before it. -/
theorem replies_iff (calls : List Call) : replies { } calls = calls.map correct ↔
    ∀ earlier c later, calls = earlier ++ c :: later → Meets earlier c :=
  replies_staticsAfter_iff [] calls

/-- At 16 o'clock the local hour is written as 24. -/
theorem replies_four_pm : replies { } [.localTime ⟨57600000000000, by decide⟩] =
      [ascii "1970-01-01 24:00:00"] ∧
    ¬∀ calls : List Call, replies { } calls = calls.map correct := by
  refine ⟨by decide, fun h => ?_⟩
  have hlocal := h [.localTime ⟨57600000000000, by decide⟩]
  exact absurd hlocal (by decide)

/-- The first call for the first second returns the empty buffer. -/
example : replies { } [.gmt ⟨0, by decide⟩] = [[]] := by decide

end Yalantinglibs.Util.TimeUtil
