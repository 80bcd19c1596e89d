import Mathlib.Algebra.Order.Field.Rat
import Mathlib.Data.Rat.Floor
import Yalantinglibs.Data.ExpositionText

/-!
# Numbers as they are printed

`std::to_string` of integers and of floating-point numbers. The latter have six digits behind the
point, and of two nearest numbers the one with an even last digit is taken.

## Main definitions

* `Number`, `Number.toString` — a number, and what is printed of it

## Main results

* `isFloat_toString_iff` — what is printed is a number of the text format, but for a NaN with a sign
* `escape_toString` — nothing in it needs an escape
* `integer_inj` — different integers are printed differently, and no integer as a `double` is
-/

set_option autoImplicit false

namespace Yalantinglibs.Metric

open ExpositionText

/-- What `std::to_string` is called with: an integer of any type, or a `double`. -/
inductive Number
  | integer (n : ℤ)
  | double (q : ℚ)
  | infinity (negative : Bool)
  | nan (negative : Bool)
  deriving DecidableEq

namespace Number

/-- The integer that is nearest to a magnitude, the even one of two. -/
def roundHalfEven (q : ℚ) : ℕ :=
  let n := ⌊q⌋.toNat
  if q - n < 1 / 2 then n
  else if 1 / 2 < q - n then n + 1
  else if n % 2 = 0 then n
  else n + 1

/-- A magnitude in millionths. -/
def micros (q : ℚ) : ℕ := roundHalfEven ((if q < 0 then -q else q) * 1000000)

def sign (negative : Bool) : Bytes := if negative then ascii "-" else []

/-- Six digits of the millionths. -/
def fraction (n : ℕ) : Bytes := ((Nat.toDigits 10 (1000000 + n % 1000000)).tail).map Char.toUInt8

/-- `std::to_string`. -/
def toString : Number → Bytes
  | integer n => sign (n < 0) ++ toDecimal n.natAbs
  | double q => sign (q < 0) ++ (toDecimal (micros q / 1000000) ++ 0x2E :: fraction (micros q))
  | infinity negative => sign negative ++ ascii "inf"
  | nan negative => sign negative ++ ascii "nan"

example : toString (double (-5 / 2)) = ascii "-2.500000" := by decide +kernel

/-! ### Digits -/

theorem isDigit_of_mem_fraction {n : ℕ} {b : UInt8} (hb : b ∈ fraction n) : isDigit b :=
  isDigit_of_mem_map
    (fun _ hc => Nat.isDigit_of_mem_toDigits (by decide) (by decide) (List.mem_of_mem_tail hc)) hb

/-! ### What is printed is a number -/

/-- The characters of numbers. -/
def isNumeral (b : UInt8) : Bool :=
  isDigit b || b = 0x2D || b = 0x2E || b ∈ ascii "infa"

theorem isNumeral_of_mem {n : Number} {b : UInt8} (h : b ∈ n.toString) : isNumeral b := by
  have hdigit : isDigit b → isNumeral b := fun h => by simp [isNumeral, h]
  have hsign : ∀ negative, b ∈ sign negative → isNumeral b := by
    intro negative hb
    cases negative
    · exact absurd hb List.not_mem_nil
    · rw [List.mem_singleton.mp hb]
      decide
  have hinf : ∀ b ∈ ascii "inf", isNumeral b := by decide
  have hnan : ∀ b ∈ ascii "nan", isNumeral b := by decide
  cases n with
  | integer n =>
    rcases List.mem_append.mp h with h | h
    · exact hsign _ h
    · exact hdigit (isDigit_of_mem_toDecimal h)
  | double q =>
    rcases List.mem_append.mp h with h | h
    · exact hsign _ h
    rcases List.mem_append.mp h with h | h
    · exact hdigit (isDigit_of_mem_toDecimal h)
    rcases List.mem_cons.mp h with rfl | h
    · decide
    · exact hdigit (isDigit_of_mem_fraction h)
  | infinity negative =>
    rcases List.mem_append.mp h with h | h
    · exact hsign _ h
    · exact hinf b h
  | nan negative =>
    rcases List.mem_append.mp h with h | h
    · exact hsign _ h
    · exact hnan b h

/-- A character of a number has no meaning of its own in a text. -/
theorem plain_of_isNumeral {b : UInt8} (h : isNumeral b) :
    isBlank b = false ∧ b ≠ newline ∧ b ≠ quote ∧ b ≠ backslash := by
  refine ⟨?_, ?_, ?_, ?_⟩
  · by_contra hblank
    rw [Bool.not_eq_false, isBlank, Bool.or_eq_true, decide_eq_true_eq, decide_eq_true_eq]
      at hblank
    rcases hblank with rfl | rfl <;> exact absurd h (by decide)
  · rintro rfl
    exact absurd h (by decide)
  · rintro rfl
    exact absurd h (by decide)
  · rintro rfl
    exact absurd h (by decide)

theorem isToken_toString (n : Number) : isToken n.toString := by
  refine List.all_eq_true.mpr fun b hb => ?_
  obtain ⟨hblank, hnewline, -⟩ := plain_of_isNumeral (isNumeral_of_mem hb)
  rw [hblank, bne_iff_ne.mpr hnewline]
  rfl

theorem escape_eq_self {value : Bytes}
    (h : ∀ b ∈ value, b ≠ newline ∧ b ≠ quote ∧ b ≠ backslash) : escape value = value := by
  induction value with
  | nil => rfl
  | cons b value ih =>
    obtain ⟨hnewline, hquote, hback⟩ := h b List.mem_cons_self
    have hrest : escape value = value := ih fun b hb => h b (List.mem_cons_of_mem _ hb)
    have hbyte : escapeByte b = [b] := by
      rw [escapeByte, if_neg hback, if_neg hquote, if_neg hnewline]
    exact (List.flatMap_cons).trans (by rw [hbyte, List.singleton_append]; exact congrArg _ hrest)

theorem escape_toString (n : Number) : escape n.toString = n.toString :=
  escape_eq_self fun _ hb => (plain_of_isNumeral (isNumeral_of_mem hb)).2

theorem dropSign_of_digit {b : UInt8} (h : isDigit b) (rest : Bytes) :
    dropSign (b :: rest) = b :: rest := by
  refine if_neg fun hb => ?_
  rw [Bool.or_eq_true, decide_eq_true_eq, decide_eq_true_eq] at hb
  rcases hb with rfl | rfl <;> exact absurd h (by decide)

/-- A sign in front of digits is passed. -/
theorem dropSign_sign_append (negative : Bool) {digits : Bytes}
    (h : ∀ b ∈ digits, isDigit b) (hne : digits ≠ []) (rest : Bytes) :
    dropSign (sign negative ++ (digits ++ rest)) = digits ++ rest := by
  cases digits with
  | nil => exact absurd rfl hne
  | cons b bs =>
    cases negative with
    | false => exact dropSign_of_digit (h b List.mem_cons_self) _
    | true => rfl

theorem isDecimal_digits {digits : Bytes} (h : ∀ b ∈ digits, isDigit b)
    (hne : digits ≠ []) : isDecimal digits := by
  rw [isDecimal, List.takeWhile_eq_self_iff.mpr h, List.dropWhile_eq_nil_iff.mpr h]
  simpa using hne

theorem isDecimal_point {digits fraction : Bytes} (h : ∀ b ∈ digits, isDigit b)
    (hne : digits ≠ []) (hfraction : ∀ b ∈ fraction, isDigit b) :
    isDecimal (digits ++ 0x2E :: fraction) := by
  rw [isDecimal, takeWhile_append_cons h (by decide), dropWhile_append_cons h (by decide)]
  dsimp only
  rw [if_pos rfl, List.dropWhile_eq_nil_iff.mpr hfraction]
  simp [hne, isExponent]

/-- What is printed is a number of the text format, unless it is a NaN with a sign. -/
theorem isFloat_toString_iff (n : Number) : isFloat n.toString ↔ n ≠ nan true := by
  cases n with
  | integer n =>
    refine iff_of_true ?_ (by simp)
    have hsign := dropSign_sign_append (n < 0) (fun _ hb => isDigit_of_mem_toDecimal hb)
      (toDecimal_ne_nil n.natAbs) []
    rw [List.append_nil] at hsign
    rw [isFloat, toString, hsign, isDecimal_digits (fun _ hb => isDigit_of_mem_toDecimal hb)
      (toDecimal_ne_nil _)]
    rfl
  | double q =>
    refine iff_of_true ?_ (by simp)
    rw [isFloat, toString, dropSign_sign_append _ (fun _ hb => isDigit_of_mem_toDecimal hb)
      (toDecimal_ne_nil _), isDecimal_point (fun _ hb => isDigit_of_mem_toDecimal hb)
      (toDecimal_ne_nil _) fun _ hb => isDigit_of_mem_fraction hb]
    rfl
  | infinity negative => cases negative <;> exact iff_of_true rfl (by simp)
  | nan negative => cases negative <;> decide

/-! ### Numbers are told apart -/

theorem minus_notMem_toDecimal (n : ℕ) : (0x2D : UInt8) ∉ toDecimal n := fun h =>
  absurd (isDigit_of_mem_toDecimal h) (by decide)

/-- Different integers are printed differently. -/
theorem integer_inj {n m : ℤ} (h : toString (integer n) = toString (integer m)) : n = m := by
  rw [toString, toString] at h
  by_cases hn : n < 0 <;> by_cases hm : m < 0
  · rw [decide_eq_true hn, decide_eq_true hm, List.append_cancel_left_eq] at h
    have habs := toDecimal_inj h
    omega
  · -- only one of them begins with a sign
    rw [decide_eq_true hn, decide_eq_false hm] at h
    refine absurd ?_ (minus_notMem_toDecimal m.natAbs)
    exact (show toDecimal m.natAbs = 0x2D :: toDecimal n.natAbs from h.symm) ▸ List.mem_cons_self
  · rw [decide_eq_false hn, decide_eq_true hm] at h
    refine absurd ?_ (minus_notMem_toDecimal n.natAbs)
    exact (show toDecimal n.natAbs = 0x2D :: toDecimal m.natAbs from h) ▸ List.mem_cons_self
  · rw [decide_eq_false hn, decide_eq_false hm, List.append_cancel_left_eq] at h
    have habs := toDecimal_inj h
    omega

/-- A `double` has a point, and an integer has none. -/
theorem toString_integer_ne_double (n : ℤ) (q : ℚ) :
    toString (integer n) ≠ toString (double q) := by
  intro h
  have hpoint : (0x2E : UInt8) ∈ toString (integer n) := by
    rw [h]
    exact List.mem_append_right _ (List.mem_append_right _ List.mem_cons_self)
  rcases List.mem_append.mp hpoint with hsign | hdigit
  · revert hsign
    cases decide (n < 0) <;> decide
  · exact absurd (isDigit_of_mem_toDecimal hdigit) (by decide)

/-- No number is printed with a plus sign. -/
theorem toString_ne_plusInf (n : Number) : n.toString ≠ ascii "+Inf" := by
  intro h
  have hplus : (0x2B : UInt8) ∈ n.toString := by
    rw [h]
    exact List.mem_cons_self
  exact absurd (isNumeral_of_mem hplus) (by decide)

end Number

end Yalantinglibs.Metric
