import Mathlib.Data.List.TakeWhile
import Yalantinglibs.Util.Timestamp

/-!
# The strings that are read as times

What `get_timestamp` reads, component by component: each is read from a piece of the string, and the
string has to be made of these pieces. The strings that are read are so those that a date and time
can be written as, with any names that are found at the right places of the tables.

## Main definitions

* `Piece`, `Pieces` — what a component is read from, and what a format is

## Main results

* `readComponent_eq_some_iff`, `travel_iff` — a component, and the loop
* `getTimestamp_http_iff`, `getTimestamp_utc_iff`, `getTimestamp_utcWithoutPunctuation_iff` — the
  strings that are read, and the times they are read as
-/

set_option autoImplicit false

namespace Yalantinglibs.Util.TimeUtil

open Calendar

/-! ### Numbers -/

theorem isDigit_digits {d : ℕ} (hd : d < 10) : IsDigit (digits.getD d 0) ∧
    (digits.getD d 0).toNat - '0'.toUInt8.toNat = d := by
  have h : ∀ d < 10, IsDigit (digits.getD d 0) ∧
    (digits.getD d 0).toNat - '0'.toUInt8.toNat = d := by decide
  exact h d hd

/-- A digit is the one of its value. -/
theorem digits_of_isDigit {b : UInt8} (hb : IsDigit b) : b.toNat - '0'.toUInt8.toNat < 10 ∧
    digits.getD (b.toNat - '0'.toUInt8.toNat) 0 = b := by
  have h : ∀ d < 10, digits.getD d 0 = UInt8.ofNat (48 + d) := by decide
  have hlow : 48 ≤ b.toNat := UInt8.le_iff_toNat_le.mp hb.1
  have hhigh : b.toNat ≤ 57 := UInt8.le_iff_toNat_le.mp hb.2
  have hzero : '0'.toUInt8.toNat = 48 := rfl
  have hlt : b.toNat - 48 < 10 := by omega
  rw [hzero, h _ hlt, Nat.add_sub_cancel' hlow, UInt8.ofNat_toNat]
  exact ⟨hlt, rfl⟩

theorem getDigitLoop_concat (u : Bytes) (b : UInt8) (num : ℕ) :
    getDigitLoop (u ++ [b]) num = (getDigitLoop u num).bind fun x =>
      if IsDigit b then some (x * 10 + (b.toNat - '0'.toUInt8.toNat)) else none := by
  induction u generalizing num with
  | nil => rfl
  | cons a u ih =>
    rw [List.cons_append, getDigitLoop, getDigitLoop]
    by_cases ha : IsDigit a
    · rw [if_pos ha, if_pos ha, ih]
    · rw [if_neg ha, if_neg ha, Option.bind_none]

theorem length_lastDigits (n v : ℕ) : (lastDigits n v).length = n := by
  induction n generalizing v with
  | zero => rfl
  | succ n ih => rw [lastDigits, List.length_append, ih, List.length_singleton]

/-- A number is read from its digits, and from nothing else. -/
theorem getDigitLoop_eq_some_iff {w : Bytes} {n v : ℕ} (hw : w.length = n) :
    getDigitLoop w 0 = some v ↔ v < 10 ^ n ∧ w = lastDigits n v := by
  induction n generalizing w v with
  | zero =>
    rw [List.length_eq_zero_iff.mp hw, getDigitLoop, Option.some.injEq, lastDigits, pow_zero,
      Nat.lt_one_iff, eq_self, and_true, eq_comm]
  | succ n ih =>
    obtain ⟨u, b, rfl⟩ : ∃ u b, w = u ++ [b] :=
      ⟨w.dropLast, w.getLast (by rintro rfl; simp at hw), (List.dropLast_append_getLast _).symm⟩
    have hu : u.length = n := by
      rw [List.length_append, List.length_singleton] at hw
      omega
    rw [getDigitLoop_concat, Option.bind_eq_some_iff, lastDigits]
    constructor
    · rintro ⟨x, hx, hv⟩
      obtain ⟨hlt, hdigits⟩ := (ih hu).mp hx
      by_cases hb : IsDigit b
      · obtain ⟨hb10, hbeq⟩ := digits_of_isDigit hb
        rw [if_pos hb, Option.some.injEq] at hv
        have hdiv : v / 10 = x := by omega
        have hmod : v % 10 = b.toNat - '0'.toUInt8.toNat := by omega
        rw [hdiv, hmod, hbeq, ← hdigits]
        exact ⟨by rw [Nat.pow_succ]; omega, rfl⟩
      · rw [if_neg hb] at hv
        cases hv
    · rintro ⟨hlt, heq⟩
      obtain ⟨hul, hbl⟩ := List.append_inj heq (by rw [hu, length_lastDigits])
      obtain ⟨hdigit, hvalue⟩ := isDigit_digits (Nat.mod_lt v (by decide : 10 > 0))
      rw [List.singleton_inj] at hbl
      refine ⟨v / 10, (ih hu).mpr ⟨?_, hul⟩, ?_⟩
      · rw [Nat.pow_succ] at hlt
        omega
      · rw [hbl, if_pos hdigit, hvalue, Nat.div_add_mod' v 10]

theorem getDigit_eq_some_iff {w : Bytes} {n v : ℕ} (hw : w.length = n) :
    getDigit w n = some v ↔ v < 10 ^ n ∧ w = lastDigits n v := by
  rw [getDigit, List.take_of_length_le hw.le, getDigitLoop_eq_some_iff hw]

/-- The digits of a number that is looked at. -/
theorem getDigit_bind_iff {α : Type*} {w : Bytes} {n : ℕ} (hw : w.length = n) {f : ℕ → Option α}
    {x : α} :
    (getDigit w n).bind f = some x ↔ ∃ v < 10 ^ n, w = lastDigits n v ∧ f v = some x := by
  rw [Option.bind_eq_some_iff]
  constructor
  · rintro ⟨v, hv, hf⟩
    obtain ⟨hlt, hdigits⟩ := (getDigit_eq_some_iff hw).mp hv
    exact ⟨v, hlt, hdigits, hf⟩
  · rintro ⟨v, hlt, hdigits, hf⟩
    exact ⟨v, (getDigit_eq_some_iff hw).mpr ⟨hlt, hdigits⟩, hf⟩

/-- A number of two digits that has to be below a bound. -/
theorem getDigit_bounded_iff {α : Type*} {w : Bytes} (hw : w.length = 2) {k : ℕ} (hk : k ≤ 100)
    {g : ℕ → α} {x : α} :
    ((getDigit w 2).bind fun v => if v ≥ k then none else some (g v)) = some x ↔
      ∃ v < k, w = lastDigits 2 v ∧ x = g v := by
  rw [getDigit_bind_iff hw]
  constructor
  · rintro ⟨v, -, hdigits, hv⟩
    rw [Option.ite_none_left_eq_some, not_le, Option.some.injEq] at hv
    exact ⟨v, hv.1, hdigits, hv.2.symm⟩
  · rintro ⟨v, hv, hdigits, rfl⟩
    exact ⟨v, by omega, hdigits, if_neg (not_le.mpr hv)⟩

/-! ### Components -/

/-- What has been read after a component, with its value and its width. -/
def Reading.store (r : Reading) (c : Component) (v n : ℕ) : Reading :=
  match c with
  | .year => { r with year := v, processed := r.processed + n }
  | .month | .monthName => { r with month := v, processed := r.processed + n }
  | .day => { r with day := v, processed := r.processed + n }
  | .hour => { r with hour := v, processed := r.processed + n }
  | .minute => { r with min := v, processed := r.processed + n }
  | .second => { r with sec := v, processed := r.processed + n }
  | .dayName => { r with dayOfWeek := some v, processed := r.processed + n }
  | .secondDecimalPart => { r with processed := r.processed + n, ignored := r.ignored + n }
  | .sp | .comma | .colon | .hyphen | .dot | .gmt | .t | .z | .ending =>
    { r with processed := r.processed + n }

/-- What a component is read from, what is behind it, and what has been read before and after it. -/
def Piece : Component → Bytes → Bytes → Reading → Reading → Prop
  | .ending, w, _, r, r' => w = [] ∧ r' = r
  | .year, w, _, r, r' => ∃ v < 10 ^ 4, w = lastDigits 4 v ∧ r' = r.store .year v 4
  | .month, w, _, r, r' => ∃ v < 12, w = lastDigits 2 (v + 1) ∧ r' = r.store .month v 2
  | .day, w, _, r, r' => ∃ v < 10 ^ 2, w = lastDigits 2 v ∧ r' = r.store .day v 2
  | .hour, w, _, r, r' => ∃ v < 24, w = lastDigits 2 v ∧ r' = r.store .hour v 2
  | .minute, w, _, r, r' => ∃ v < 60, w = lastDigits 2 v ∧ r' = r.store .minute v 2
  | .second, w, _, r, r' => ∃ v < 60, w = lastDigits 2 v ∧ r' = r.store .second v 2
  | .dayName, w, _, r, r' =>
    w.length = 3 ∧ ∃ v, getDayIndex w = some v ∧ r' = r.store .dayName v 3
  | .monthName, w, _, r, r' =>
    w.length = 3 ∧ ∃ v, getMonthIndex w = some v ∧ r' = r.store .monthName v 3
  | .gmt, w, _, r, r' => w = ascii "GMT" ∧ r' = r.store .gmt 0 3
  | .secondDecimalPart, w, rest, r, r' => w ≠ [] ∧ (∀ b ∈ w, IsDigit b) ∧
      (∀ b ∈ rest.head?, ¬IsDigit b) ∧ r' = r.store .secondDecimalPart 0 w.length
  | .sp, w, _, r, r' => w = [Component.sp.mark] ∧ r' = r.store .sp 0 1
  | .comma, w, _, r, r' => w = [Component.comma.mark] ∧ r' = r.store .comma 0 1
  | .colon, w, _, r, r' => w = [Component.colon.mark] ∧ r' = r.store .colon 0 1
  | .hyphen, w, _, r, r' => w = [Component.hyphen.mark] ∧ r' = r.store .hyphen 0 1
  | .dot, w, _, r, r' => w = [Component.dot.mark] ∧ r' = r.store .dot 0 1
  | .t, w, _, r, r' => w = [Component.t.mark] ∧ r' = r.store .t 0 1
  | .z, w, _, r, r' => w = [Component.z.mark] ∧ r' = r.store .z 0 1

/-- What a format is read from. -/
def Pieces : List Component → Bytes → Reading → Reading → Prop
  | [], text, r, r' => text = [] ∧ r' = r
  | c :: cs, text, r, r' =>
    ∃ w rest r₁, text = w ++ rest ∧ Piece c w rest r r₁ ∧ Pieces cs rest r₁ r'

/-- What has been read goes on by the piece. -/
theorem Piece.processed {c : Component} {w rest : Bytes} {r r' : Reading}
    (h : Piece c w rest r r') : r'.processed = r.processed + w.length := by
  cases c
  case ending =>
    obtain ⟨rfl, rfl⟩ := h
    rfl
  case secondDecimalPart =>
    obtain ⟨-, -, -, rfl⟩ := h
    rfl
  case gmt | sp | comma | colon | hyphen | dot | t | z =>
    obtain ⟨rfl, rfl⟩ := h
    rfl
  case dayName | monthName =>
    obtain ⟨hw, v, -, rfl⟩ := h
    rw [hw]
    rfl
  case year | month | day | hour | minute | second =>
    obtain ⟨v, -, rfl, rfl⟩ := h
    rw [length_lastDigits]
    rfl

section Reading

variable {sv : Bytes} {len : ℤ} (hle : len ≤ sv.length) {r r' : Reading} (hp : r.processed ≤ len)
include hle hp

/-- The next characters of the part that counts. -/
theorem nextChars_eq_some_iff {n : ℕ} {w : Bytes} : nextChars sv len r n = some w ↔
    w.length = n ∧ ∃ rest, (sv.take len.toNat).drop r.processed = w ++ rest := by
  rw [nextChars, List.drop_take]
  by_cases h : len - r.processed < n
  · rw [if_pos h]
    constructor
    · exact fun h' => by cases h'
    · rintro ⟨hw, rest, hrest⟩
      have hlength := congrArg List.length hrest
      rw [List.length_take, List.length_drop, List.length_append] at hlength
      omega
  · have htake : ((sv.drop r.processed).take (len.toNat - r.processed)).take n =
        (sv.drop r.processed).take n := by
      rw [List.take_take, min_eq_left (by omega)]
    rw [if_neg h, Option.some.injEq, ← htake]
    constructor
    · rintro rfl
      refine ⟨?_, _, (List.take_append_drop n _).symm⟩
      rw [htake, List.length_take, List.length_drop]
      omega
    · rintro ⟨rfl, rest, hrest⟩
      rw [hrest, List.take_left]

/-- A component that has a width is read from that many characters. -/
theorem nextChars_bind_iff {n : ℕ} {f : Bytes → Option Reading} {P : Bytes → Prop}
    (hf : ∀ w, w.length = n → (f w = some r' ↔ P w)) (hP : ∀ w, P w → w.length = n) :
    (nextChars sv len r n).bind f = some r' ↔
      ∃ w rest, (sv.take len.toNat).drop r.processed = w ++ rest ∧ P w := by
  rw [Option.bind_eq_some_iff]
  constructor
  · rintro ⟨w, hw, hfw⟩
    obtain ⟨hn, rest, hrest⟩ := (nextChars_eq_some_iff hle hp).mp hw
    exact ⟨w, rest, hrest, (hf w hn).mp hfw⟩
  · rintro ⟨w, rest, hrest, hPw⟩
    have hn := hP w hPw
    exact ⟨w, (nextChars_eq_some_iff hle hp).mpr ⟨hn, rest, hrest⟩, (hf w hn).mpr hPw⟩

/-- A component is read from a piece. -/
theorem readComponent_eq_some_iff (c : Component) : readComponent sv len c r = some r' ↔
    ∃ w rest, (sv.take len.toNat).drop r.processed = w ++ rest ∧ Piece c w rest r r' := by
  cases c
  case ending =>
    rw [readComponent, Option.some.injEq]
    constructor
    · rintro rfl
      exact ⟨[], _, rfl, rfl, rfl⟩
    · rintro ⟨w, rest, -, -, rfl⟩
      rfl
  case secondDecimalPart =>
    rw [readComponent, Option.ite_none_left_eq_some, Option.some.injEq]
    constructor
    · rintro ⟨hne, rfl⟩
      refine ⟨_, _, List.takeWhile_append_dropWhile.symm, hne, ?_, ?_, rfl⟩
      · intro b hb
        have hdigit := List.mem_takeWhile_imp hb
        exact of_decide_eq_true hdigit
      · intro b hb hdigit
        have hnot := List.head?_dropWhile_not (fun b => decide (IsDigit b))
          ((sv.take len.toNat).drop r.processed)
        rw [Option.mem_def.mp hb] at hnot
        exact of_decide_eq_false hnot hdigit
    · rintro ⟨w, rest, hrest, hne, hw, hhead, rfl⟩
      have hpiece : (((sv.take len.toNat).drop r.processed).takeWhile fun b =>
          decide (IsDigit b)) = w := by
        have hnil : (rest.takeWhile fun b => decide (IsDigit b)) = [] := by
          cases rest with
          | nil => rfl
          | cons b rest =>
            exact List.takeWhile_cons_of_neg fun hb => hhead b rfl (of_decide_eq_true hb)
        rw [hrest, List.takeWhile_append_of_pos fun b hb => decide_eq_true (hw b hb), hnil,
          List.append_nil]
      rw [hpiece]
      exact ⟨hne, rfl⟩
  case gmt =>
    refine nextChars_bind_iff hle hp (fun w hw => ?_) fun w hw => ?_
    · rw [Option.ite_none_left_eq_some, not_not, Option.some.injEq, eq_comm (b := r')]
      rfl
    · rw [hw.1]
      rfl
  case sp | comma | colon | hyphen | dot | t | z =>
    refine nextChars_bind_iff hle hp (fun w hw => ?_) fun w hw => ?_
    · obtain ⟨b, rfl⟩ := List.length_eq_one_iff.mp hw
      rw [Option.ite_none_left_eq_some, not_not, Option.some.injEq, List.headD_cons,
        eq_comm (b := r')]
      exact and_congr_left' List.singleton_inj.symm
    · rw [hw.1]
      rfl
  case dayName | monthName =>
    refine nextChars_bind_iff hle hp (fun w hw => ?_) fun w hw => hw.1
    refine Option.bind_eq_some_iff.trans (Iff.trans ?_ (and_iff_right hw).symm)
    simp only [Option.some.injEq, eq_comm (b := r')]
    rfl
  case year | day =>
    refine nextChars_bind_iff hle hp (fun w hw => ?_) fun w hw => ?_
    · refine (getDigit_bind_iff hw).trans ?_
      simp only [Option.some.injEq, eq_comm (b := r')]
      rfl
    · obtain ⟨v, -, rfl, -⟩ := hw
      exact length_lastDigits _ v
  case month =>
    refine nextChars_bind_iff hle hp (fun w hw => ?_) fun w hw => ?_
    · refine (getDigit_bind_iff hw).trans ?_
      constructor
      · rintro ⟨v, hv, hdigits, hr⟩
        rw [Option.ite_none_left_eq_some, Option.some.injEq] at hr
        exact ⟨v - 1, by omega, by rw [hdigits, Nat.sub_add_cancel (by omega)], hr.2.symm⟩
      · rintro ⟨v, hv, hdigits, rfl⟩
        exact ⟨v + 1, by omega, hdigits, if_neg (by omega)⟩
    · obtain ⟨v, -, rfl, -⟩ := hw
      exact length_lastDigits _ (v + 1)
  case hour | minute | second =>
    refine nextChars_bind_iff hle hp (fun w hw => getDigit_bounded_iff hw (by decide))
      fun w hw => ?_
    obtain ⟨v, -, rfl, -⟩ := hw
    exact length_lastDigits _ v

/-- Behind a piece the reading goes on. -/
theorem drop_piece {c : Component} {w rest : Bytes}
    (hrest : (sv.take len.toNat).drop r.processed = w ++ rest) (hpiece : Piece c w rest r r') :
    (r'.processed : ℤ) ≤ len ∧ (sv.take len.toNat).drop r'.processed = rest := by
  have hlength := congrArg List.length hrest
  rw [List.length_drop, List.length_take, List.length_append] at hlength
  have hprocessed := hpiece.processed
  refine ⟨by omega, ?_⟩
  rw [hprocessed, ← List.drop_drop, hrest, List.drop_left]

omit hle hp in
theorem travel_cons {c : Component} (hc : c ≠ .ending) (cs : List Component) :
    travel sv len (c :: cs) r = (readComponent sv len c r).bind (travel sv len cs) := by
  cases c
  case ending => exact absurd rfl hc
  all_goals rfl

/-- The loop has read all the part that counts if that is made of pieces. The induction is on the
format; what has been read goes on with each piece. -/
theorem travel_iff (comps : List Component) (hending : Component.ending ∉ comps.dropLast) :
    travel sv len comps r = some r' ∧ (r'.processed : ℤ) = len ↔
      Pieces comps ((sv.take len.toNat).drop r.processed) r r' := by
  induction comps generalizing r with
  | nil =>
    rw [travel, Pieces, Option.some.injEq, List.drop_eq_nil_iff, List.length_take]
    constructor
    · rintro ⟨rfl, h⟩
      exact ⟨by omega, rfl⟩
    · rintro ⟨h, rfl⟩
      exact ⟨rfl, by omega⟩
  | cons c cs ih =>
    by_cases hc : c = .ending
    · -- nothing comes behind `ending`
      obtain rfl : cs = [] := by
        by_contra hne
        rw [List.dropLast_cons_of_ne_nil hne, hc] at hending
        exact hending List.mem_cons_self
      rw [hc, travel, Option.some.injEq]
      constructor
      · rintro ⟨rfl, h⟩
        refine ⟨[], _, r, rfl, ⟨rfl, rfl⟩, ?_, rfl⟩
        rw [List.drop_eq_nil_iff, List.length_take]
        omega
      · rintro ⟨w, rest, r₁, hrest, ⟨rfl, rfl⟩, rfl, rfl⟩
        rw [List.append_nil, List.drop_eq_nil_iff, List.length_take] at hrest
        exact ⟨rfl, by omega⟩
    · have hcs : Component.ending ∉ cs.dropLast := fun h => hending (by
        rw [List.dropLast_cons_of_ne_nil (by rintro rfl; cases h)]
        exact List.mem_cons_of_mem c h)
      rw [travel_cons hc, Option.bind_eq_some_iff]
      constructor
      · rintro ⟨⟨r₁, hread, htravel⟩, hprocessed⟩
        obtain ⟨w, rest, hrest, hpiece⟩ := (readComponent_eq_some_iff hle hp c).mp hread
        obtain ⟨hp₁, hdrop⟩ := drop_piece hle hp hrest hpiece
        have hpieces := (ih hp₁ hcs).mp ⟨htravel, hprocessed⟩
        rw [hdrop] at hpieces
        exact ⟨w, rest, r₁, hrest, hpiece, hpieces⟩
      · rintro ⟨w, rest, r₁, hrest, hpiece, hpieces⟩
        obtain ⟨hp₁, hdrop⟩ := drop_piece hle hp hrest hpiece
        rw [← hdrop] at hpieces
        obtain ⟨htravel, hprocessed⟩ := (ih hp₁ hcs).mpr hpieces
        exact ⟨⟨r₁, (readComponent_eq_some_iff hle hp c).mpr ⟨w, rest, hrest, hpiece⟩, htravel⟩,
          hprocessed⟩

end Reading

/-- The characters that count are a text, if behind it there are some multiple of 2^32. -/
theorem take_bmod_iff {sv text : Bytes} :
    (0 ≤ (sv.length : ℤ).bmod (2 ^ 32) ∧ sv.take ((sv.length : ℤ).bmod (2 ^ 32)).toNat = text) ↔
      text.length < 2 ^ 31 ∧ ∃ rest, sv = text ++ rest ∧ 2 ^ 32 ∣ rest.length := by
  constructor
  · rintro ⟨hpos, rfl⟩
    rw [Int.bmod_def] at hpos ⊢
    refine ⟨?_, _, (List.take_append_drop _ _).symm, ?_⟩
    · rw [List.length_take]
      omega
    · rw [List.length_drop]
      omega
  · rintro ⟨hlt, rest, rfl, k, hk⟩
    have hlength : ((text ++ rest).length : ℤ).bmod (2 ^ 32) = text.length := by
      rw [List.length_append, hk, Int.bmod_def]
      omega
    rw [hlength, Int.toNat_natCast, List.take_left]
    exact ⟨by omega, rfl⟩

/-! ### The formats -/

/-- The pieces of an HTTP date. -/
theorem pieces_http_iff {text : Bytes} {r' : Reading} : Pieces httpTimeFormat text { } r' ↔
    ∃ dayName monthName dayOfWeek month day year hour min sec,
      (dayName.length = 3 ∧ getDayIndex dayName = some dayOfWeek) ∧
      (monthName.length = 3 ∧ getMonthIndex monthName = some month) ∧
      day < 10 ^ 2 ∧ year < 10 ^ 4 ∧ hour < 24 ∧ min < 60 ∧ sec < 60 ∧
      text = dayName ++ ascii ", " ++ lastDigits 2 day ++ ascii " " ++ monthName ++ ascii " " ++
        lastDigits 4 year ++ ascii " " ++ lastDigits 2 hour ++ ascii ":" ++ lastDigits 2 min ++
        ascii ":" ++ lastDigits 2 sec ++ ascii " GMT" ∧
      r' =
        { processed := 29, year := year, month := month, day := day, hour := hour, min := min,
          sec := sec, dayOfWeek := some dayOfWeek } := by
  constructor
  · intro h
    simp only [httpTimeFormat, Pieces, Piece, existsAndEq, and_assoc, exists_and_left, true_and,
      and_true] at h
    obtain ⟨dayName, dayOfWeek, day, monthName, month, year, hour, min, sec, rfl, hdayName,
      hdayOfWeek, hday, hmonthName, hmonth, hyear, hhour, hmin, hsec, rfl⟩ := h
    refine ⟨dayName, monthName, dayOfWeek, month, day, year, hour, min, sec,
      ⟨hdayName, hdayOfWeek⟩, ⟨hmonthName, hmonth⟩, hday, hyear, hhour, hmin, hsec, ?_, rfl⟩
    simp [ascii, Component.mark]
  · intro h
    simp only [httpTimeFormat, Pieces, Piece, existsAndEq, and_assoc, exists_and_left, true_and,
      and_true]
    obtain ⟨dayName, monthName, dayOfWeek, month, day, year, hour, min, sec,
      ⟨hdayName, hdayOfWeek⟩, ⟨hmonthName, hmonth⟩, hday, hyear, hhour, hmin, hsec, rfl, rfl⟩ := h
    refine ⟨dayName, dayOfWeek, day, monthName, month, year, hour, min, sec, ?_, hdayName,
      hdayOfWeek, hday, hmonthName, hmonth, hyear, hhour, hmin, hsec, rfl⟩
    simp [ascii, Component.mark]

/-- The text of the UTC format, with the decimal part of the seconds. -/
def utcTextOf (year month day hour min sec : ℕ) (decimals : Bytes) : Bytes :=
  lastDigits 4 year ++ ascii "-" ++ lastDigits 2 (month + 1) ++ ascii "-" ++ lastDigits 2 day ++
    ascii "T" ++ lastDigits 2 hour ++ ascii ":" ++ lastDigits 2 min ++ ascii ":" ++
    lastDigits 2 sec ++ ascii "." ++ decimals ++ ascii "Z"

/-- The same without punctuation. -/
def utcTextWithoutPunctuationOf (year month day hour min sec : ℕ) (decimals : Bytes) : Bytes :=
  lastDigits 4 year ++ lastDigits 2 (month + 1) ++ lastDigits 2 day ++ ascii "T" ++
    lastDigits 2 hour ++ lastDigits 2 min ++ lastDigits 2 sec ++ decimals ++ ascii "Z"

/-- What is read with one of the UTC formats. -/
def utcReading (n year month day hour min sec : ℕ) (decimals : Bytes) : Reading where
  processed := n + decimals.length + 1
  ignored := 0 + decimals.length
  year := year
  month := month
  day := day
  hour := hour
  min := min
  sec := sec

theorem not_isDigit_z : ∀ b ∈ ([Component.z.mark] ++ ([] ++ [])).head?, ¬IsDigit b := by
  rintro b ⟨⟩
  decide

/-- The pieces of a time of the UTC format. -/
theorem pieces_utc_iff {text : Bytes} {r' : Reading} : Pieces utcTimeFormat text { } r' ↔
    ∃ year month day hour min sec decimals, year < 10 ^ 4 ∧ month < 12 ∧ day < 10 ^ 2 ∧
      hour < 24 ∧ min < 60 ∧ sec < 60 ∧ decimals ≠ [] ∧ (∀ b ∈ decimals, IsDigit b) ∧
      text = utcTextOf year month day hour min sec decimals ∧
      r' = utcReading 20 year month day hour min sec decimals := by
  constructor
  · intro h
    simp only [utcTimeFormat, Pieces, Piece, existsAndEq, and_assoc, exists_and_left, true_and,
      and_true] at h
    obtain ⟨year, month, day, hour, min, sec, decimals, rfl, hyear, hmonth, hday, hhour, hmin, hsec,
      hne, hdigit, -, rfl⟩ := h
    refine ⟨year, month, day, hour, min, sec, decimals, hyear, hmonth, hday, hhour, hmin, hsec, hne,
      hdigit, ?_, rfl⟩
    simp [utcTextOf, ascii, Component.mark]
  · intro h
    simp only [utcTimeFormat, Pieces, Piece, existsAndEq, and_assoc, exists_and_left, true_and,
      and_true]
    obtain ⟨year, month, day, hour, min, sec, decimals, hyear, hmonth, hday, hhour, hmin, hsec, hne,
      hdigit, htext, hr⟩ := h
    rw [htext, hr]
    refine ⟨year, month, day, hour, min, sec, decimals, ?_, hyear, hmonth, hday, hhour, hmin, hsec,
      hne, hdigit, not_isDigit_z, rfl⟩
    simp [utcTextOf, ascii, Component.mark]

/-- The pieces of one without punctuation. -/
theorem pieces_utcWithoutPunctuation_iff {text : Bytes} {r' : Reading} :
    Pieces utcTimeWithoutPunctuationFormat text { } r' ↔
    ∃ year month day hour min sec decimals, year < 10 ^ 4 ∧ month < 12 ∧ day < 10 ^ 2 ∧
      hour < 24 ∧ min < 60 ∧ sec < 60 ∧ decimals ≠ [] ∧ (∀ b ∈ decimals, IsDigit b) ∧
      text = utcTextWithoutPunctuationOf year month day hour min sec decimals ∧
      r' = utcReading 15 year month day hour min sec decimals := by
  constructor
  · intro h
    simp only [utcTimeWithoutPunctuationFormat, Pieces, Piece, existsAndEq, and_assoc,
      exists_and_left, true_and, and_true] at h
    obtain ⟨year, month, day, hour, min, sec, decimals, rfl, hyear, hmonth, hday, hhour, hmin, hsec,
      hne, hdigit, -, rfl⟩ := h
    refine ⟨year, month, day, hour, min, sec, decimals, hyear, hmonth, hday, hhour, hmin, hsec, hne,
      hdigit, ?_, rfl⟩
    simp [utcTextWithoutPunctuationOf, ascii, Component.mark]
  · intro h
    simp only [utcTimeWithoutPunctuationFormat, Pieces, Piece, existsAndEq, and_assoc,
      exists_and_left, true_and, and_true]
    obtain ⟨year, month, day, hour, min, sec, decimals, hyear, hmonth, hday, hhour, hmin, hsec, hne,
      hdigit, htext, hr⟩ := h
    rw [htext, hr]
    refine ⟨year, month, day, hour, min, sec, decimals, ?_, hyear, hmonth, hday, hhour, hmin, hsec,
      hne, hdigit, not_isDigit_z, rfl⟩
    simp [utcTextWithoutPunctuationOf, ascii, Component.mark]

/-! ### The strings that are read -/

/-- The part that is read, and what is checked at the end. -/
theorem getTimestamp_eq_some_iff {format : TimeFormat} {s : Bytes} {x : ℤ} :
    getTimestamp format s = some x ↔
      ∃ text rest r, Pieces (getFormat format) text { } r ∧
        (s = text ++ rest ∧ text.length < 2 ^ 31 ∧ 2 ^ 32 ∣ rest.length) ∧
        ((r.processed : ℤ) = lenOfHttpTimeFormat ∨
          (r.processed - r.ignored : ℤ) = lenOfUtcTimeFormat ∨
          (r.processed - r.ignored : ℤ) = lenOfUtcTimeWithoutPunctuationFormat) ∧
        (1 ≤ r.day ∧ r.day ≤ daysIn r.month r.year) ∧
        fasterMktime r.year r.month r.day r.hour r.min r.sec r.dayOfWeek = some x := by
  have hending : Component.ending ∉ (getFormat format).dropLast := by
    cases format <;> decide
  have hle : (s.length : ℤ).bmod (2 ^ 32) ≤ s.length := by
    rw [Int.bmod_def]
    omega
  have hrun (r : Reading) (hpos : 0 ≤ (s.length : ℤ).bmod (2 ^ 32)) :
      travel s ((s.length : ℤ).bmod (2 ^ 32)) (getFormat format) { } = some r ∧
          (r.processed : ℤ) = (s.length : ℤ).bmod (2 ^ 32) ↔
        Pieces (getFormat format) (s.take ((s.length : ℤ).bmod (2 ^ 32)).toNat) { } r := by
    have hzero : (({ } : Reading).processed : ℤ) = 0 := rfl
    have h := @travel_iff s _ hle { } r (by rw [hzero]; exact hpos) (getFormat format) hending
    rwa [List.drop_zero] at h
  rw [getTimestamp, Option.bind_eq_bind, Option.bind_eq_some_iff]
  constructor
  · rintro ⟨r, htravel, h⟩
    rw [Option.ite_none_left_eq_some, Option.ite_none_left_eq_some] at h
    obtain ⟨hlength, hday, hx⟩ := h
    have hprocessed : (r.processed : ℤ) = (s.length : ℤ).bmod (2 ^ 32) := by
      by_contra hne
      exact hlength (Or.inl hne)
    have hpos : 0 ≤ (s.length : ℤ).bmod (2 ^ 32) := by omega
    have hpieces := (hrun r hpos).mp ⟨htravel, hprocessed⟩
    obtain ⟨hlt, rest, hrest, hdvd⟩ := take_bmod_iff.mp ⟨hpos, rfl⟩
    refine ⟨_, rest, r, hpieces, ⟨hrest, hlt, hdvd⟩, ?_, by omega, hx⟩
    by_contra hne
    push Not at hne
    exact hlength (Or.inr hne)
  · rintro ⟨text, rest, r, hpieces, ⟨hrest, hlt, hdvd⟩, hlength, hday, hx⟩
    obtain ⟨hpos, rfl⟩ := take_bmod_iff.mpr ⟨hlt, rest, hrest, hdvd⟩
    obtain ⟨htravel, hprocessed⟩ := (hrun r hpos).mpr hpieces
    refine ⟨r, htravel, ?_⟩
    rw [if_neg, if_neg (by omega), hx]
    rintro (h | ⟨h₁, h₂, h₃⟩)
    · exact h hprocessed
    · obtain h | h | h := hlength
      · exact h₁ h
      · exact h₂ h
      · exact h₃ h

/-- A date and time with the fields that are read. -/
theorem fasterMktime_eq_some_iff {year month day hour min sec : ℕ} (hyear : year < 10 ^ 4)
    (hmonth : month < 12) (hhour : hour < 24) (hmin : min < 60) (hsec : sec < 60)
    {dayOfWeek : Option ℕ} {x : ℤ} :
    ((1 ≤ day ∧ day ≤ daysIn month year) ∧
        fasterMktime year month day hour min sec dayOfWeek = some x) ↔
      ∃ t : DateTime, (t.date.year = year ∧ t.date.month = month ∧ t.date.day = day) ∧
        (t.hour = hour ∧ t.minute = min ∧ t.second = sec) ∧
        (∀ w ∈ dayOfWeek, w = t.date.weekday) ∧ t.toSeconds = x := by
  rw [daysIn_eq hmonth]
  have hweekday (t : DateTime) : (dayOfWeek ≠ none ∧ dayOfWeek ≠ some t.date.weekday) ↔
      ¬∀ w ∈ dayOfWeek, w = t.date.weekday := by
    cases dayOfWeek <;> simp
  constructor
  · rintro ⟨⟨hpos, hle⟩, h⟩
    obtain ⟨t, ⟨hy, rfl, rfl⟩, rfl, rfl, rfl⟩ : ∃ t : DateTime,
        (t.date.year = year ∧ t.date.month = month ∧ t.date.day = day) ∧
          t.hour = hour ∧ t.minute = min ∧ t.second = sec :=
      ⟨⟨⟨year, month, day, hpos, hle⟩, hour, min, sec, hhour, hmin, hsec⟩,
        ⟨rfl, rfl, rfl⟩, rfl, rfl, rfl⟩
    rw [fasterMktime_eq t hy hyear, Option.ite_none_left_eq_some, hweekday t, not_not,
      Option.some.injEq] at h
    exact ⟨t, ⟨hy, rfl, rfl⟩, ⟨rfl, rfl, rfl⟩, h⟩
  · rintro ⟨t, ⟨hy, rfl, rfl⟩, ⟨rfl, rfl, rfl⟩, hday, rfl⟩
    rw [fasterMktime_eq t hy hyear, if_neg (by rw [hweekday t, not_not]; exact hday)]
    exact ⟨⟨t.date.day_pos, hy ▸ t.date.day_le⟩, rfl⟩

theorem getMonthIndex_lt {w : Bytes} {v : ℕ} (h : getMonthIndex w = some v) : v < 12 := by
  have htable : ∀ i < 17, ∀ v ∈ monthTable.getD i none, v < 12 := by decide
  exact htable _ (Nat.mod_lt _ (by decide)) v h

/-- The years that are written with four digits. -/
def FourDigits (t : DateTime) : Prop := 0 ≤ t.date.year ∧ t.date.year < 10000

theorem FourDigits.exists_year {t : DateTime} (h : FourDigits t) :
    ∃ year < 10 ^ 4, t.date.year = ((year : ℕ) : ℤ) :=
  ⟨t.date.year.toNat, by have := h.2; omega, (Int.toNat_of_nonneg h.1).symm⟩

theorem fourDigits_of_eq {t : DateTime} {year : ℕ} (hyear : year < 10 ^ 4)
    (h : t.date.year = year) : FourDigits t := by
  rw [FourDigits, h]
  omega

theorem date_day_lt (d : Date) : d.day < 10 ^ 2 := by
  have h : ∀ leap, ∀ m < 12, (monthLengths leap).getD m 0 ≤ 31 := by decide
  have hle := d.day_le
  have h31 := h (isLeap d.year) d.month d.month_lt
  omega

theorem length_gmtTextWith {dayName monthName : Bytes} (hday : dayName.length = 3)
    (hmonth : monthName.length = 3) (t : DateTime) :
    (gmtTextWith dayName monthName t).length = 29 := by
  simp [gmtTextWith, ascii, hday, hmonth, length_lastDigits]

/-- What is read as an HTTP date: the text of the time, but for the names, which are any that the
tables have at the same place, and for what comes behind it, if its length is not seen. -/
theorem getTimestamp_http_iff {s : Bytes} {x : ℤ} : getTimestamp .http s = some x ↔
    ∃ (t : DateTime) (dayName monthName rest : Bytes), FourDigits t ∧
      (dayName.length = 3 ∧ getDayIndex dayName = some t.date.weekday) ∧
      (monthName.length = 3 ∧ getMonthIndex monthName = some t.date.month) ∧
      s = gmtTextWith dayName monthName t ++ rest ∧ 2 ^ 32 ∣ rest.length ∧ t.toSeconds = x := by
  rw [getTimestamp_eq_some_iff]
  constructor
  · rintro ⟨text, rest, r, hpieces, ⟨hs, -, hdvd⟩, -, hx⟩
    obtain ⟨dayName, monthName, dayOfWeek, month, day, year, hour, min, sec,
      ⟨hdayName, hdayOfWeek⟩, ⟨hmonthName, hmonth⟩, -, hyear, hhour, hmin, hsec, htext, rfl⟩ :=
      pieces_http_iff.mp hpieces
    obtain ⟨t, ⟨hy, rfl, rfl⟩, ⟨rfl, rfl, rfl⟩, hweekday, hsum⟩ :=
      (fasterMktime_eq_some_iff hyear (getMonthIndex_lt hmonth) hhour hmin hsec).mp hx
    refine ⟨t, dayName, monthName, rest, fourDigits_of_eq hyear hy,
      ⟨hdayName, ?_⟩, ⟨hmonthName, hmonth⟩, ?_, hdvd, hsum⟩
    · rw [hdayOfWeek, hweekday dayOfWeek rfl]
    · rw [hs, htext, gmtTextWith, hy, Int.toNat_natCast]
  · rintro ⟨t, dayName, monthName, rest, hfour, ⟨hdayName, hday⟩, ⟨hmonthName, hmonth⟩,
      hs, hdvd, hx⟩
    obtain ⟨year, hyear, hy⟩ := hfour.exists_year
    refine ⟨_, rest, _, pieces_http_iff.mpr ⟨dayName, monthName, _, _, t.date.day, year, t.hour,
      t.minute, t.second, ⟨hdayName, hday⟩, ⟨hmonthName, hmonth⟩, date_day_lt t.date, hyear,
      t.hour_lt, t.minute_lt, t.second_lt, rfl, rfl⟩, ⟨?_, ?_, hdvd⟩, Or.inl rfl, ?_⟩
    · rw [hs, gmtTextWith, hy, Int.toNat_natCast]
    · have hlength := length_gmtTextWith hdayName hmonthName t
      rw [gmtTextWith, hy, Int.toNat_natCast] at hlength
      rw [hlength]
      decide
    · exact (fasterMktime_eq_some_iff hyear t.date.month_lt t.hour_lt t.minute_lt t.second_lt).mpr
        ⟨t, ⟨hy, rfl, rfl⟩, ⟨rfl, rfl, rfl⟩, fun w hw => (Option.some.inj hw).symm, hx⟩

/-- A string is the text of a time, with a decimal part. What comes behind it is not seen if its
length is a multiple of 2^32. -/
def IsUtcText (textOf : ℕ → ℕ → ℕ → ℕ → ℕ → ℕ → Bytes → Bytes) (s : Bytes) (x : ℤ) : Prop :=
  ∃ (t : DateTime) (decimals text rest : Bytes), FourDigits t ∧
    (decimals ≠ [] ∧ ∀ b ∈ decimals, IsDigit b) ∧
    text = textOf t.date.year.toNat t.date.month t.date.day t.hour t.minute t.second decimals ∧
    (s = text ++ rest ∧ text.length < 2 ^ 31 ∧ 2 ^ 32 ∣ rest.length) ∧ t.toSeconds = x

/-- The time of a text of one of the UTC formats. -/
theorem getTimestamp_of_pieces (format : TimeFormat)
    (textOf : ℕ → ℕ → ℕ → ℕ → ℕ → ℕ → Bytes → Bytes) {n : ℕ} (hn : n = 20 ∨ n = 15)
    (hpieces : ∀ text r', Pieces (getFormat format) text { } r' ↔
      ∃ year month day hour min sec decimals, year < 10 ^ 4 ∧ month < 12 ∧ day < 10 ^ 2 ∧
        hour < 24 ∧ min < 60 ∧ sec < 60 ∧ decimals ≠ [] ∧ (∀ b ∈ decimals, IsDigit b) ∧
        text = textOf year month day hour min sec decimals ∧
        r' = utcReading n year month day hour min sec decimals) {s : Bytes} {x : ℤ} :
    getTimestamp format s = some x ↔ IsUtcText textOf s x := by
  rw [getTimestamp_eq_some_iff, IsUtcText]
  constructor
  · rintro ⟨text, rest, r, hread, hs, -, hx⟩
    obtain ⟨year, month, day, hour, min, sec, decimals, hyear, hmonth, -, hhour, hmin, hsec, hne,
      hdigit, htext, rfl⟩ := (hpieces text r).mp hread
    obtain ⟨t, ⟨hy, rfl, rfl⟩, ⟨rfl, rfl, rfl⟩, -, hsum⟩ :=
      (fasterMktime_eq_some_iff hyear hmonth hhour hmin hsec).mp hx
    refine ⟨t, decimals, text, rest, fourDigits_of_eq hyear hy, ⟨hne, hdigit⟩, ?_, hs, hsum⟩
    rw [htext, hy, Int.toNat_natCast]
  · rintro ⟨t, decimals, text, rest, hfour, ⟨hne, hdigit⟩, htext, hs, hx⟩
    obtain ⟨year, hyear, hy⟩ := hfour.exists_year
    rw [hy, Int.toNat_natCast] at htext
    refine ⟨text, rest, _, (hpieces _ _).mpr ⟨year, _, _, _, _, _, decimals, hyear, t.date.month_lt,
      date_day_lt t.date, t.hour_lt, t.minute_lt, t.second_lt, hne, hdigit, htext, rfl⟩, hs, ?_, ?_⟩
    · rw [lenOfUtcTimeFormat, lenOfUtcTimeWithoutPunctuationFormat, utcReading]
      dsimp only
      omega
    · exact (fasterMktime_eq_some_iff hyear t.date.month_lt t.hour_lt t.minute_lt t.second_lt).mpr
        ⟨t, ⟨hy, rfl, rfl⟩, ⟨rfl, rfl, rfl⟩, fun w hw => (by cases hw), hx⟩

theorem getTimestamp_utc_iff {s : Bytes} {x : ℤ} :
    getTimestamp .utc s = some x ↔ IsUtcText utcTextOf s x :=
  getTimestamp_of_pieces .utc utcTextOf (Or.inl rfl) fun _ _ => pieces_utc_iff

theorem getTimestamp_utcWithoutPunctuation_iff {s : Bytes} {x : ℤ} :
    getTimestamp .utcWithoutPunctuation s = some x ↔ IsUtcText utcTextWithoutPunctuationOf s x :=
  getTimestamp_of_pieces .utcWithoutPunctuation utcTextWithoutPunctuationOf (Or.inr rfl) fun _ _ =>
    pieces_utcWithoutPunctuation_iff

end Yalantinglibs.Util.TimeUtil
