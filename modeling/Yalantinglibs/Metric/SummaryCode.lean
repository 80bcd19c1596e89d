import Mathlib.Algebra.Order.Field.Rat
import Mathlib.Algebra.Order.AbsoluteValue.Basic
import Mathlib.Data.Int.Bitwise
import Mathlib.Data.Rat.Cast.Order
import Mathlib.Tactic.FieldSimp
import Mathlib.Tactic.IntervalCases
import Mathlib.Tactic.NormNum
import Mathlib.Tactic.Positivity
import Yalantinglibs.Data.BinaryFloat

/-!
# The code of a summary

`metric/summary_impl.hpp` keeps an observation, which is a `float`, as a code of 14 bits: the sign,
seven bits of exponent and six of fraction. The code of a number below `2 ^ -62` is read back as
zero, and the code of a number from `2 ^ 64` on as `2 ^ 64`.

## Main definitions

* `encode`, `decode` — the code of a float, and the float of a code
* `getOrderedIndex`, `getRawIndex` — codes in the order of what they are read back as
* `value` — the number that a float is

## Main results

* `abs_value_decode_encode_sub_le` — what the code loses
* `order_encode_le` — codes are in the order of the numbers
-/

set_option autoImplicit false

namespace Yalantinglibs.Metric.Summary

open BinaryFloat

/-! ### Floats -/

/-- The bits of a `float`. -/
abbrev Flt := BitVec 32

/-- The bits below the sign. -/
def mag (flt : Flt) : ℕ := flt.toNat % 2 ^ 31

/-- The number that a float is. An infinity, and what is not a number, is read as if its exponent
field were one of a number, so that it is beyond all numbers of its sign. -/
def value (flt : Flt) : ℚ := (if flt.msb then -1 else 1) * (magnitude 23 (mag flt) / 2 ^ 149 : ℚ)

def isNan (flt : Flt) : Bool := 0x7F800000 < mag flt

/-- `(1ull << 63) * 2.0f`, which is `2 ^ 64`, and its negative. -/
def float16Max : Flt := 0x5F800000

def negFloat16Max : Flt := 0xDF800000

/-! ### The code -/

def fracBit : ℕ := 6

/-- The exponent less 64, or 0 below that, without a branch. -/
def clampExponent (tmp : ℕ) : ℕ :=
  let mask := ((((0x40 - tmp : ℤ) >>> 6) % 2 ^ 32).toNat) >>> 25
  ((((tmp - 0x40 : ℤ) % 2 ^ 32).toNat) &&& mask) % 2 ^ 16

def encode (flt : Flt) : ℕ :=
  let flt :=
    if (¬isNan flt ∧ value float16Max ≤ |value flt|) ∨ isNan flt then
      if flt &&& 0x80000000 ≠ 0 then negFloat16Max else float16Max
    else flt
  let fltInt32 := flt.toNat
  let fltInt16 := ((fltInt32 >>> 31) <<< 7) % 2 ^ 16
  let tmp := (fltInt32 >>> 23) &&& 0xff
  let fltInt16 := ((fltInt16 ||| clampExponent tmp) <<< 8) % 2 ^ 16
  -- the fraction of a number below `2 ^ -62` stays in the code
  let fltInt16 := fltInt16 ||| ((fltInt32 >>> 15) &&& 0xff)
  fltInt16 >>> (8 - fracBit)

/-- `decode_impl`, which the decode table is filled with. -/
def decode (float16Value : ℕ) : Flt :=
  let float16Value := (float16Value <<< (8 - fracBit)) % 2 ^ 16
  let sign := float16Value >>> 15
  let exponent := (float16Value >>> 8) &&& 0x7F
  let fraction := float16Value &&& 0xFF
  if exponent = 0 then BitVec.ofNat 32 (sign <<< 31)
  else if exponent = 0x7F then BitVec.ofNat 32 ((sign <<< 31) ||| ((127 + (127 - 63)) <<< 23))
  else
    BitVec.ofNat 32 ((sign <<< 31) ||| ((exponent + (127 - 63)) <<< 23) ||| (fraction <<< 15))

def bucketSize : ℕ := 1 <<< (fracBit + 1 + 7)

/-- Conversions to `size_t`, `uint16_t` and `int16_t`. -/
def sizeT (x : ℤ) : ℤ := x % 2 ^ 64

def uint16 (x : ℤ) : ℤ := x % 2 ^ 16

def int16 (x : ℤ) : ℤ := (x + 2 ^ 15) % 2 ^ 16 - 2 ^ 15

/-- The index is compared and subtracted as a `size_t`. -/
def getOrderedIndex (rawIndex : ℤ) : ℤ :=
  if (bucketSize / 2 : ℕ) ≤ sizeT rawIndex then
    uint16 (sizeT ((bucketSize / 2 - 1 : ℕ) - sizeT rawIndex))
  else uint16 rawIndex

def getRawIndex (orderedIndex : ℤ) : ℤ :=
  if orderedIndex < 0 then uint16 (sizeT ((bucketSize / 2 - 1 : ℕ) - sizeT orderedIndex))
  else uint16 orderedIndex

/-- The ordered index of a code, as `stat_impl` keeps it. -/
def order (code : ℕ) : ℤ := int16 (getOrderedIndex (int16 code))

/-! ### Codes as fields -/

/-- A float, from its sign and the bits below. -/
def ofFields (sign : Bool) (m : ℕ) : Flt := BitVec.ofNat 32 (sign.toNat * 2 ^ 31 + m)

theorem mag_lt (flt : Flt) : mag flt < 2 ^ 31 := Nat.mod_lt _ (by norm_num)

theorem toNat_eq_fields (flt : Flt) : flt.toNat = flt.msb.toNat * 2 ^ 31 + mag flt := by
  have hlt := flt.isLt
  rw [BitVec.msb_eq_decide, mag]
  by_cases h : 2 ^ 31 ≤ flt.toNat
  · have hmsb : decide (2 ^ (32 - 1) ≤ flt.toNat) = true := decide_eq_true h
    rw [hmsb, Bool.toNat_true]
    omega
  · have hmsb : decide (2 ^ (32 - 1) ≤ flt.toNat) = false := decide_eq_false h
    rw [hmsb, Bool.toNat_false]
    omega

theorem toNat_ofFields (sign : Bool) {m : ℕ} (hm : m < 2 ^ 31) :
    (ofFields sign m).toNat = sign.toNat * 2 ^ 31 + m := by
  have hsign := Bool.toNat_le sign
  rw [ofFields, BitVec.toNat_ofNat, Nat.mod_eq_of_lt]
  omega

theorem msb_ofFields (sign : Bool) {m : ℕ} (hm : m < 2 ^ 31) : (ofFields sign m).msb = sign := by
  rw [BitVec.msb_eq_decide, toNat_ofFields sign hm]
  cases sign with
  | false =>
    rw [Bool.toNat_false, Nat.zero_mul, Nat.zero_add]
    exact decide_eq_false (Nat.not_le.mpr hm)
  | true =>
    rw [Bool.toNat_true, Nat.one_mul]
    exact decide_eq_true (Nat.le_add_right _ _)

theorem mag_ofFields (sign : Bool) {m : ℕ} (hm : m < 2 ^ 31) : mag (ofFields sign m) = m := by
  rw [mag, toNat_ofFields sign hm, Nat.mul_comm, Nat.mul_add_mod, Nat.mod_eq_of_lt hm]

theorem eq_ofFields (flt : Flt) : flt = ofFields flt.msb (mag flt) := by
  apply BitVec.eq_of_toNat_eq
  rw [toNat_ofFields _ (mag_lt flt), toNat_eq_fields]

theorem clampExponent_eq : ∀ tmp < 256,
    clampExponent tmp = if tmp ≤ 64 then 0 else (tmp - 64) % 128 := by
  decide +kernel

/-- The bits below the sign, of numbers that are not beyond `2 ^ 64`. -/
def clampMag (m : ℕ) : ℕ := min m (191 * 2 ^ 23)

/-- The code without its sign. -/
def codeMag (m : ℕ) : ℕ :=
  if clampMag m < 65 * 2 ^ 23 then clampMag m / 2 ^ 17 % 64 else clampMag m / 2 ^ 17 - 64 * 64

/-- What a code without sign is read back as. -/
def decodeMag (r : ℕ) : ℕ :=
  if r < 64 then 0 else if 127 * 64 ≤ r then 191 * 2 ^ 23 else (r + 64 * 64) * 2 ^ 17

theorem abs_value (flt : Flt) : |value flt| = magnitude 23 (mag flt) / 2 ^ 149 := by
  have hnonneg : (0 : ℚ) ≤ magnitude 23 (mag flt) / 2 ^ 149 := by positivity
  rw [value, abs_mul, abs_of_nonneg hnonneg]
  split <;> simp

theorem abs_value_le_iff (x y : Flt) : |value x| ≤ |value y| ↔ mag x ≤ mag y := by
  rw [abs_value, abs_value, div_le_div_iff_of_pos_right (by positivity), Nat.cast_le,
    magnitude_le_iff]

/-- The test for what is not a number, and for numbers from `2 ^ 64` on. -/
theorem clamped_iff (flt : Flt) :
    ((¬isNan flt ∧ value float16Max ≤ |value flt|) ∨ isNan flt) ↔ 191 * 2 ^ 23 ≤ mag flt := by
  have hmax : value float16Max = |value float16Max| := by decide +kernel
  have hmag : mag float16Max = 191 * 2 ^ 23 := by decide +kernel
  rw [hmax, abs_value_le_iff, hmag, isNan, decide_eq_true_iff]
  constructor
  · rintro (⟨-, h⟩ | h)
    · exact h
    · exact le_trans (by norm_num) h.le
  · intro h
    by_cases hnan : 0x7F800000 < mag flt
    · exact .inr hnan
    · exact .inl ⟨hnan, h⟩

theorem and_sign_ne_zero_iff (flt : Flt) : flt &&& 0x80000000 ≠ 0 ↔ flt.msb = true := by
  have hpow : (0x80000000 : Flt) = BitVec.twoPow 32 31 := by decide
  rw [hpow, BitVec.and_twoPow, BitVec.msb_eq_getLsbD_last]
  cases flt.getLsbD (32 - 1) with
  | false => simp
  | true => simp

/-- A float that is not beyond `2 ^ 64` in either direction. -/
theorem clamped_eq (flt : Flt) :
    (if (¬isNan flt ∧ value float16Max ≤ |value flt|) ∨ isNan flt then
      if flt &&& 0x80000000 ≠ 0 then negFloat16Max else float16Max
    else flt) = ofFields flt.msb (clampMag (mag flt)) := by
  by_cases h : 191 * 2 ^ 23 ≤ mag flt
  · rw [if_pos ((clamped_iff flt).mpr h), clampMag, min_eq_right h]
    cases hsign : flt.msb with
    | false =>
      rw [if_neg]
      · decide
      · rw [and_sign_ne_zero_iff, hsign]
        exact Bool.false_ne_true
    | true =>
      rw [if_pos ((and_sign_ne_zero_iff flt).mpr hsign)]
      decide
  · rw [if_neg (mt (clamped_iff flt).mp h), clampMag, min_eq_left (Nat.le_of_not_le h)]
    exact eq_ofFields flt

theorem and_255 (x : ℕ) : x &&& 0xff = x % 256 := Nat.and_two_pow_sub_one_eq_mod x 8

theorem and_127 (x : ℕ) : x &&& 0x7F = x % 128 := Nat.and_two_pow_sub_one_eq_mod x 7

theorem mul_or_eq_add {a b : ℕ} (n : ℕ) (hb : b < 2 ^ n) : a * 2 ^ n ||| b = a * 2 ^ n + b := by
  rw [← Nat.shiftLeft_eq, Nat.shiftLeft_add_eq_or_of_lt hb]

theorem clampMag_lt (m : ℕ) : clampMag m < 2 ^ 31 :=
  Nat.lt_of_le_of_lt (min_le_right _ _) (by norm_num)

theorem clampMag_le (m : ℕ) : clampMag m ≤ 191 * 2 ^ 23 := min_le_right _ _

theorem codeMag_lt (m : ℕ) : codeMag m < 8192 := by
  have h := clampMag_le m
  unfold codeMag
  split <;> omega

theorem encode_eq (flt : Flt) : encode flt = flt.msb.toNat * 8192 + codeMag (mag flt) := by
  have hsign := Bool.toNat_le flt.msb
  have hclamp := clampMag_le (mag flt)
  unfold encode
  rw [clamped_eq]
  dsimp only
  rw [toNat_ofFields _ (clampMag_lt _)]
  generalize flt.msb.toNat = s at hsign ⊢
  unfold codeMag
  generalize clampMag (mag flt) = m at hclamp ⊢
  have hexponent : (s * 2 ^ 31 + m) / 2 ^ 23 % 256 = m / 2 ^ 23 := by omega
  have hfraction : (s * 2 ^ 31 + m) / 2 ^ 15 % 256 = m / 2 ^ 15 % 256 := by omega
  have htop : (s * 2 ^ 31 + m) / 2 ^ 31 = s := by omega
  simp only [Nat.shiftRight_eq_div_pow, Nat.shiftLeft_eq, and_255, hexponent, hfraction, htop]
  rw [clampExponent_eq _ (by omega)]
  have hbits : s * 2 ^ 7 % 2 ^ 16 = s * 2 ^ 7 := by omega
  have htmp : (if m / 2 ^ 23 ≤ 64 then 0 else (m / 2 ^ 23 - 64) % 128) < 2 ^ 7 := by
    split <;> omega
  rw [hbits, mul_or_eq_add 7 htmp]
  generalize hT : (if m / 2 ^ 23 ≤ 64 then 0 else (m / 2 ^ 23 - 64) % 128) = t at htmp ⊢
  have hshift : (s * 2 ^ 7 + t) * 2 ^ 8 % 2 ^ 16 = (s * 2 ^ 7 + t) * 2 ^ 8 := by omega
  have hlow : m / 2 ^ 15 % 256 < 2 ^ 8 := by omega
  rw [hshift, mul_or_eq_add 8 hlow]
  have hfrac : 8 - fracBit = 2 := rfl
  rw [hfrac]
  clear hbits hexponent hfraction htop hlow hshift
  subst hT
  by_cases h : m / 2 ^ 23 ≤ 64
  · have hsmall : m < 65 * 2 ^ 23 := by omega
    rw [if_pos h, if_pos hsmall]
    omega
  · have hlarge : ¬m < 65 * 2 ^ 23 := by omega
    rw [if_neg h, if_neg hlarge]
    omega

theorem fraction_lt (r : ℕ) : r % 64 * 4 * 2 ^ 15 < 2 ^ 23 := by omega

/-- Exponent and fraction of a code, side by side. -/
theorem fields_eq (b r : ℕ) : (b * 2 ^ 8 + (r / 64 + 64)) * 2 ^ 23 + r % 64 * 4 * 2 ^ 15 =
    b * 2 ^ 31 + (r + 64 * 64) * 2 ^ 17 := by omega

/-- The sign and the other bits of a code. -/
theorem decode_eq (s : Bool) {r : ℕ} (hr : r < 8192) :
    decode (s.toNat * 8192 + r) = ofFields s (decodeMag r) := by
  have hsign := Bool.toNat_le s
  have hfrac : 8 - fracBit = 2 := rfl
  unfold decode ofFields
  generalize s.toNat = b at hsign ⊢
  have hvalue : ((b * 8192 + r) * 2 ^ 2) % 2 ^ 16 = (b * 8192 + r) * 2 ^ 2 := by omega
  have hsign' : (b * 8192 + r) * 2 ^ 2 / 2 ^ 15 = b := by omega
  have hexponent : (b * 8192 + r) * 2 ^ 2 / 2 ^ 8 % 128 = r / 64 := by omega
  have hfraction : (b * 8192 + r) * 2 ^ 2 % 256 = r % 64 * 4 := by omega
  simp only [hfrac, Nat.shiftRight_eq_div_pow, Nat.shiftLeft_eq, and_255, and_127, hvalue, hsign',
    hexponent, hfraction]
  clear hvalue hsign' hexponent hfraction
  unfold decodeMag
  by_cases hzero : r < 64
  · have hexp : r / 64 = 0 := by omega
    rw [if_pos hexp, if_pos hzero, Nat.add_zero]
  · have hexp : r / 64 ≠ 0 := by omega
    rw [if_neg hexp, if_neg hzero]
    by_cases hmax : 127 * 64 ≤ r
    · have hexp : r / 64 = 127 := by omega
      have hlow : (127 + (127 - 63)) * 2 ^ 23 < 2 ^ 31 := by norm_num
      rw [if_pos hexp, if_pos hmax, mul_or_eq_add 31 hlow]
    · have hexp : r / 64 ≠ 127 := by omega
      have hmid : (r / 64 + (127 - 63)) * 2 ^ 23 < 2 ^ 31 := by omega
      rw [if_neg hexp, if_neg hmax, mul_or_eq_add 31 hmid]
      have hsum : b * 2 ^ 31 + (r / 64 + (127 - 63)) * 2 ^ 23 =
          (b * 2 ^ 8 + (r / 64 + 64)) * 2 ^ 23 := by omega
      rw [hsum, mul_or_eq_add 23 (fraction_lt r), fields_eq]

/-! ### The order of codes -/

/-- Codes with the sign are below the others, in the other direction. -/
theorem order_fields (s : Bool) {r : ℕ} (hr : r < 8192) :
    order (s.toNat * 8192 + r) = if s then -1 - (r : ℤ) else r := by
  have hhalf : ((bucketSize / 2 : ℕ) : ℤ) = 8192 := rfl
  have hlast : ((bucketSize / 2 - 1 : ℕ) : ℤ) = 8191 := rfl
  unfold order getOrderedIndex
  rw [hhalf, hlast]
  unfold int16 uint16 sizeT
  cases s with
  | false =>
    rw [Bool.toNat_false, Nat.zero_mul, Nat.zero_add, if_neg (by omega), if_neg Bool.false_ne_true]
    omega
  | true =>
    rw [Bool.toNat_true, Nat.one_mul, if_pos (by omega), if_pos rfl]
    omega

theorem exists_code_fields {code : ℕ} (h : code < bucketSize) :
    ∃ (s : Bool) (r : ℕ), r < 8192 ∧ code = s.toNat * 8192 + r := by
  have hsize : bucketSize = 16384 := rfl
  rw [hsize] at h
  by_cases hs : 8192 ≤ code
  · refine ⟨true, code - 8192, by omega, ?_⟩
    rw [Bool.toNat_true]
    omega
  · refine ⟨false, code, by omega, ?_⟩
    rw [Bool.toNat_false]
    omega

/-- The index is turned back into the code. -/
theorem getRawIndex_order {code : ℕ} (h : code < bucketSize) : getRawIndex (order code) = code := by
  obtain ⟨s, r, hr, rfl⟩ := exists_code_fields h
  have hlast : ((bucketSize / 2 - 1 : ℕ) : ℤ) = 8191 := rfl
  rw [order_fields s hr]
  unfold getRawIndex
  rw [hlast]
  unfold uint16 sizeT
  cases s with
  | false =>
    rw [if_neg Bool.false_ne_true, if_neg (by omega), Bool.toNat_false]
    omega
  | true =>
    rw [if_pos rfl, if_pos (by omega), Bool.toNat_true]
    omega

theorem order_injective {c d : ℕ} (hc : c < bucketSize) (hd : d < bucketSize)
    (h : order c = order d) : c = d := by
  have := congrArg getRawIndex h
  rw [getRawIndex_order hc, getRawIndex_order hd] at this
  exact Int.ofNat.inj this

theorem encode_lt (flt : Flt) : encode flt < bucketSize := by
  have hsize : bucketSize = 16384 := rfl
  have hsign := Bool.toNat_le flt.msb
  have hmag := codeMag_lt (mag flt)
  rw [encode_eq, hsize]
  omega

theorem order_encode (flt : Flt) :
    order (encode flt) = if flt.msb then -1 - (codeMag (mag flt) : ℤ) else codeMag (mag flt) := by
  rw [encode_eq, order_fields _ (codeMag_lt _)]

theorem order_encode_neg_iff (flt : Flt) : order (encode flt) < 0 ↔ flt.msb = true := by
  rw [order_encode]
  cases flt.msb with
  | false => simp
  | true =>
    rw [if_pos rfl]
    exact ⟨fun _ => rfl, fun _ => by omega⟩

theorem decodeMag_mono : Monotone decodeMag := by
  intro a b h
  unfold decodeMag
  split
  · exact Nat.zero_le _
  · split
    · rw [if_neg (by omega), if_pos (by omega)]
    · rw [if_neg (by omega)]
      split
      · have hlt : a + 64 * 64 ≤ 191 * 64 := by omega
        calc (a + 64 * 64) * 2 ^ 17 ≤ 191 * 64 * 2 ^ 17 := Nat.mul_le_mul_right _ hlt
          _ = 191 * 2 ^ 23 := by norm_num
      · exact Nat.mul_le_mul_right _ (Nat.add_le_add_right h _)

theorem value_ofFields (s : Bool) {m : ℕ} (hm : m < 2 ^ 31) :
    value (ofFields s m) = (if s then -1 else 1) * (magnitude 23 m / 2 ^ 149 : ℚ) := by
  rw [value, msb_ofFields s hm, mag_ofFields s hm]

theorem decodeMag_lt {r : ℕ} (hr : r < 8192) : decodeMag r < 2 ^ 31 := by
  unfold decodeMag
  split
  · norm_num
  · split <;> omega

theorem value_decode (s : Bool) {r : ℕ} (hr : r < 8192) : value (decode (s.toNat * 8192 + r)) =
    (if s then -1 else 1) * (magnitude 23 (decodeMag r) / 2 ^ 149 : ℚ) := by
  rw [decode_eq s hr, value_ofFields s (decodeMag_lt hr)]

/-- Codes are in the order of what they are read back as. -/
theorem value_decode_mono {c d : ℕ} (hc : c < bucketSize) (hd : d < bucketSize)
    (h : order c ≤ order d) : value (decode c) ≤ value (decode d) := by
  obtain ⟨s, r, hr, rfl⟩ := exists_code_fields hc
  obtain ⟨t, q, hq, rfl⟩ := exists_code_fields hd
  rw [order_fields s hr, order_fields t hq] at h
  rw [value_decode s hr, value_decode t hq]
  have hnonneg : ∀ m : ℕ, (0 : ℚ) ≤ magnitude 23 m / 2 ^ 149 := fun m => by positivity
  have hmono : ∀ {a b : ℕ}, a ≤ b →
      (magnitude 23 (decodeMag a) / 2 ^ 149 : ℚ) ≤ magnitude 23 (decodeMag b) / 2 ^ 149 := by
    intro a b hab
    refine div_le_div_of_nonneg_right ?_ (by positivity)
    exact Nat.cast_le.mpr (magnitude_le_iff.mpr (decodeMag_mono hab))
  cases s with
  | false =>
    cases t with
    | false =>
      have hle : r ≤ q := by simpa using h
      simpa using hmono hle
    | true =>
      simp only [Bool.false_eq_true, if_false, if_true] at h
      omega
  | true =>
    cases t with
    | false =>
      simp only [Bool.false_eq_true, if_false, if_true]
      linarith [hnonneg (decodeMag r), hnonneg (decodeMag q)]
    | true =>
      simp only [if_true] at h ⊢
      have hle : q ≤ r := by omega
      linarith [hmono hle]

/-! ### What the code loses -/

theorem decodeMag_codeMag (m : ℕ) : decodeMag (codeMag m) =
    if clampMag m < 65 * 2 ^ 23 then 0 else clampMag m / 2 ^ 17 * 2 ^ 17 := by
  have hle := clampMag_le m
  unfold codeMag
  generalize clampMag m = n at hle ⊢
  by_cases h : n < 65 * 2 ^ 23
  · rw [if_pos h, if_pos h, decodeMag, if_pos (Nat.mod_lt _ (by norm_num))]
  · rw [if_neg h, if_neg h, decodeMag, if_neg (by omega)]
    split <;> omega

theorem value_decode_encode (flt : Flt) : value (decode (encode flt)) =
    (if flt.msb then -1 else 1) * (magnitude 23 (decodeMag (codeMag (mag flt))) / 2 ^ 149 : ℚ) := by
  rw [encode_eq, value_decode _ (codeMag_lt _)]

theorem magnitude_low : magnitude 23 (65 * 2 ^ 23) = 2 ^ 87 := magnitude_exponent 64

theorem magnitude_high : magnitude 23 (191 * 2 ^ 23) = 2 ^ 213 := magnitude_exponent 190

theorem low_le_iff (flt : Flt) : 2⁻¹ ^ 62 ≤ |value flt| ↔ 65 * 2 ^ 23 ≤ mag flt := by
  have hlow : (2⁻¹ : ℚ) ^ 62 = (2 ^ 87 : ℕ) / 2 ^ 149 := by norm_num
  rw [abs_value, hlow, ← magnitude_low, div_le_div_iff_of_pos_right (by positivity), Nat.cast_le,
    magnitude_le_iff]

theorem high_le_iff (flt : Flt) : 2 ^ 64 ≤ |value flt| ↔ 191 * 2 ^ 23 ≤ mag flt := by
  have hhigh : (2 : ℚ) ^ 64 = (2 ^ 213 : ℕ) / 2 ^ 149 := by norm_num
  rw [abs_value, hhigh, ← magnitude_high, div_le_div_iff_of_pos_right (by positivity), Nat.cast_le,
    magnitude_le_iff]

/-- The first six bits of the fraction are kept. -/
theorem abs_value_decode_encode_sub_le {flt : Flt} (hlow : 2⁻¹ ^ 62 ≤ |value flt|)
    (hhigh : |value flt| < 2 ^ 64) :
    |value (decode (encode flt)) - value flt| ≤ 2⁻¹ ^ 6 * |value flt| := by
  have hl := (low_le_iff flt).mp hlow
  have hh : mag flt < 191 * 2 ^ 23 := by
    by_contra h
    exact absurd ((high_le_iff flt).mpr (Nat.not_lt.mp h)) (not_le.mpr hhigh)
  have hclamp : clampMag (mag flt) = mag flt := min_eq_left hh.le
  have hkept : decodeMag (codeMag (mag flt)) = mag flt / 2 ^ 17 * 2 ^ 17 := by
    rw [decodeMag_codeMag, hclamp, if_neg (Nat.not_lt.mpr hl)]
  have hbound := magnitude_sub_truncate_le (p := 23) (t := 17) (by norm_num)
    (le_trans (by norm_num) hl)
  have hle : magnitude 23 (mag flt / 2 ^ 17 * 2 ^ 17) ≤ magnitude 23 (mag flt) :=
    magnitude_le_iff.mpr (Nat.div_mul_le_self _ _)
  have hcast : ((magnitude 23 (mag flt) : ℚ) - magnitude 23 (mag flt / 2 ^ 17 * 2 ^ 17)) * 2 ^ 6 ≤
      magnitude 23 (mag flt) := by
    rw [← Nat.cast_sub hle]
    exact_mod_cast hbound
  have hsub : (0 : ℚ) ≤ magnitude 23 (mag flt) - magnitude 23 (mag flt / 2 ^ 17 * 2 ^ 17) :=
    sub_nonneg.mpr (Nat.cast_le.mpr hle)
  rw [abs_value, value_decode_encode, hkept, value, ← mul_sub, abs_mul, ← sub_div, abs_div,
    abs_sub_comm, abs_of_nonneg hsub]
  have hone : |(if flt.msb then -1 else 1 : ℚ)| = 1 := by split <;> simp
  have hpow : |(2 : ℚ) ^ 149| = 2 ^ 149 := abs_of_pos (by positivity)
  rw [hone, one_mul, hpow, ← mul_div_assoc]
  refine div_le_div_of_nonneg_right ?_ (by positivity)
  linarith

/-- What is too small is read back as zero. -/
theorem value_decode_encode_of_lt {flt : Flt} (h : |value flt| < 2⁻¹ ^ 62) :
    value (decode (encode flt)) = 0 := by
  have hlow : mag flt < 65 * 2 ^ 23 := by
    by_contra hge
    exact absurd ((low_le_iff flt).mpr (Nat.not_lt.mp hge)) (not_le.mpr h)
  have hclamp : clampMag (mag flt) < 65 * 2 ^ 23 := Nat.lt_of_le_of_lt (min_le_left _ _) hlow
  rw [value_decode_encode, decodeMag_codeMag, if_pos hclamp, magnitude_of_lt (by norm_num)]
  simp

/-- What is too large is read back as the largest number of its sign. -/
theorem value_decode_encode_of_le {flt : Flt} (h : 2 ^ 64 ≤ |value flt|) :
    value (decode (encode flt)) = (if flt.msb then -1 else 1) * 2 ^ 64 := by
  have hclamp : clampMag (mag flt) = 191 * 2 ^ 23 := min_eq_right ((high_le_iff flt).mp h)
  have hkept : decodeMag (codeMag (mag flt)) = 191 * 2 ^ 23 := by
    rw [decodeMag_codeMag, hclamp, if_neg (by norm_num)]
    norm_num
  rw [value_decode_encode, hkept, magnitude_high]
  norm_num

theorem decodeMag_codeMag_mono {a b : ℕ} (h : a ≤ b) :
    decodeMag (codeMag a) ≤ decodeMag (codeMag b) := by
  have hclamp : clampMag a ≤ clampMag b := min_le_min_right _ h
  rw [decodeMag_codeMag, decodeMag_codeMag]
  split
  · exact Nat.zero_le _
  · rw [if_neg (by omega)]
    exact Nat.mul_le_mul_right _ (Nat.div_le_div_right hclamp)

theorem codeMag_mono {a b : ℕ} (h : a ≤ b) (hb : 65 * 2 ^ 23 ≤ b) : codeMag a ≤ codeMag b := by
  have hclamp : clampMag a ≤ clampMag b := min_le_min_right _ h
  have hlow : 65 * 2 ^ 23 ≤ clampMag b := le_min hb (by norm_num)
  unfold codeMag
  rw [if_neg (Nat.not_lt.mpr hlow)]
  split
  · have := Nat.mod_lt (clampMag a / 2 ^ 17) (show 64 > 0 by norm_num)
    omega
  · exact Nat.sub_le_sub_right (Nat.div_le_div_right hclamp) _

/-- Two numbers in order, in terms of their fields. -/
theorem mag_of_value_le {x y : Flt} (h : value x ≤ value y) :
    (x.msb = false ∧ y.msb = false ∧ mag x ≤ mag y) ∨
      (x.msb = true ∧ y.msb = true ∧ mag y ≤ mag x) ∨
      (x.msb = true ∧ y.msb = false) ∨
      (x.msb = false ∧ y.msb = true ∧ mag x = 0 ∧ mag y = 0) := by
  have hmag : ∀ {a b : Flt}, (magnitude 23 (mag a) / 2 ^ 149 : ℚ) ≤ magnitude 23 (mag b) / 2 ^ 149 →
      mag a ≤ mag b := by
    intro a b hab
    rwa [div_le_div_iff_of_pos_right (by positivity), Nat.cast_le, magnitude_le_iff] at hab
  unfold value at h
  cases hx : x.msb with
  | false =>
    cases hy : y.msb with
    | false =>
      rw [hx, hy] at h
      simp only [Bool.false_eq_true, if_false, one_mul] at h
      exact .inl ⟨rfl, rfl, hmag h⟩
    | true =>
      rw [hx, hy] at h
      simp only [Bool.false_eq_true, if_false, if_true, one_mul, neg_mul] at h
      have hzero : ∀ m : ℕ, (magnitude 23 m / 2 ^ 149 : ℚ) ≤ 0 → m = 0 := by
        intro m hm
        rw [div_le_iff₀ (by positivity), zero_mul] at hm
        have hle : magnitude 23 m ≤ magnitude 23 0 := by
          rw [magnitude_of_lt (Nat.two_pow_pos 23)]
          exact_mod_cast hm
        exact Nat.le_zero.mp (magnitude_le_iff.mp hle)
      have hxnonneg : (0 : ℚ) ≤ magnitude 23 (mag x) / 2 ^ 149 := by positivity
      have hynonneg : (0 : ℚ) ≤ magnitude 23 (mag y) / 2 ^ 149 := by positivity
      exact .inr (.inr (.inr ⟨rfl, rfl, hzero _ (by linarith), hzero _ (by linarith)⟩))
  | true =>
    cases hy : y.msb with
    | false => exact .inr (.inr (.inl ⟨rfl, rfl⟩))
    | true =>
      rw [hx, hy] at h
      simp only [if_true, neg_mul, one_mul, neg_le_neg_iff] at h
      exact .inr (.inl ⟨rfl, rfl, hmag h⟩)

/-- Codes are in the order of the numbers, but for numbers of one sign that are too small. -/
theorem order_encode_le {x y : Flt} (h : value x ≤ value y)
    (hsize : 2⁻¹ ^ 62 ≤ |value x| ∨ 2⁻¹ ^ 62 ≤ |value y| ∨ (x.msb = true ∧ y.msb = false)) :
    order (encode x) ≤ order (encode y) := by
  rw [low_le_iff, low_le_iff] at hsize
  rw [order_encode, order_encode]
  rcases mag_of_value_le h with ⟨hx, hy, hle⟩ | ⟨hx, hy, hle⟩ | ⟨hx, hy⟩ | ⟨hx, hy, hzx, hzy⟩
  · have hlarge : 65 * 2 ^ 23 ≤ mag y := by
      rcases hsize with hs | hs | ⟨hs, -⟩
      · exact hs.trans hle
      · exact hs
      · rw [hx] at hs
        cases hs
    have := codeMag_mono hle hlarge
    simp only [hx, hy, Bool.false_eq_true, if_false]
    omega
  · have hlarge : 65 * 2 ^ 23 ≤ mag x := by
      rcases hsize with hs | hs | ⟨-, hs⟩
      · exact hs
      · exact hs.trans hle
      · rw [hy] at hs
        cases hs
    have := codeMag_mono hle hlarge
    simp only [hx, hy, if_true]
    omega
  · simp only [hx, hy, Bool.false_eq_true, if_false, if_true]
    omega
  · rw [hzx, hzy, hx] at hsize
    rcases hsize with hs | hs | ⟨hs, -⟩
    · norm_num at hs
    · norm_num at hs
    · cases hs

/-- What numbers are read back as is in the order of the numbers. -/
theorem value_decode_encode_mono {x y : Flt} (h : value x ≤ value y) :
    value (decode (encode x)) ≤ value (decode (encode y)) := by
  have hmono : ∀ {a b : ℕ}, a ≤ b → (magnitude 23 (decodeMag (codeMag a)) / 2 ^ 149 : ℚ) ≤
      magnitude 23 (decodeMag (codeMag b)) / 2 ^ 149 := by
    intro a b hab
    refine div_le_div_of_nonneg_right ?_ (by positivity)
    exact Nat.cast_le.mpr (magnitude_le_iff.mpr (decodeMag_codeMag_mono hab))
  have hnonneg : ∀ m : ℕ, (0 : ℚ) ≤ magnitude 23 m / 2 ^ 149 := fun m => by positivity
  rw [value_decode_encode, value_decode_encode]
  rcases mag_of_value_le h with ⟨hx, hy, hle⟩ | ⟨hx, hy, hle⟩ | ⟨hx, hy⟩ | ⟨hx, hy, hzx, hzy⟩
  · simpa [hx, hy] using hmono hle
  · simpa [hx, hy] using hmono hle
  · simp only [hx, hy, Bool.false_eq_true, if_false, if_true]
    linarith [hnonneg (decodeMag (codeMag (mag x))), hnonneg (decodeMag (codeMag (mag y)))]
  · have hzero : magnitude 23 (decodeMag (codeMag 0)) = 0 := by decide
    rw [hzx, hzy, hzero]
    simp

end Yalantinglibs.Metric.Summary
