import Mathlib.Data.Nat.Digits.Defs
import Yalantinglibs.Data.ByteCodec

/-!
# Characters as bytes

The texts of protocols and formats are bytes, of which the literals are given by their characters. A
number is written with the bytes of its decimal digits.

## Main definitions

* `codes`, `ascii` — the bytes of a list of characters, and of a literal
* `isDigit` — a decimal digit
* `toDecimal` — a number in decimal digits

## Main results

* `toDecimal_inj` — different numbers are written differently
-/

set_option autoImplicit false

namespace Yalantinglibs

/-- The codes of characters. -/
def codes (cs : List Char) : Bytes := cs.map Char.toUInt8

/-- The codes of the characters of a literal. -/
def ascii (s : String) : Bytes := s.toList.map Char.toUInt8

/-- A literal is a list of characters: to rewrite with this is much faster than to decode it. -/
theorem ascii_ofList (l : List Char) : ascii (String.ofList l) = l.map Char.toUInt8 := by
  rw [ascii, String.toList_ofList]

/-- The code of `'"'`. -/
def quote : UInt8 := 0x22

/-- The code of the backslash. -/
def backslash : UInt8 := 0x5C

/-- The code of a space. -/
def space : UInt8 := 0x20

/-! ### Decimal digits -/

def isDigit (b : UInt8) : Bool := 0x30 ≤ b && b ≤ 0x39

/-- The code of a digit is one, and the digit can be told from it. -/
theorem isDigit_toUInt8 {c : Char} (h : c.isDigit) :
    isDigit c.toUInt8 ∧ Char.ofNat c.toUInt8.toNat = c := by
  have hval : 48 ≤ c.toNat ∧ c.toNat ≤ 57 := by
    rw [Char.isDigit, Bool.and_eq_true, decide_eq_true_eq, decide_eq_true_eq] at h
    exact ⟨UInt32.le_iff_toNat_le.mp h.1, UInt32.le_iff_toNat_le.mp h.2⟩
  have hbyte : c.toUInt8.toNat = c.toNat := by
    rw [Char.toUInt8, UInt32.toNat_toUInt8]
    exact Nat.mod_eq_of_lt (lt_of_le_of_lt hval.2 (by decide))
  constructor
  · rw [isDigit, Bool.and_eq_true, decide_eq_true_eq, decide_eq_true_eq, UInt8.le_iff_toNat_le,
      UInt8.le_iff_toNat_le, hbyte]
    exact hval
  · rw [hbyte, Char.ofNat_toNat]

theorem isDigit_of_mem_map {cs : List Char} (hcs : ∀ c ∈ cs, c.isDigit) {b : UInt8}
    (hb : b ∈ cs.map Char.toUInt8) : isDigit b := by
  obtain ⟨c, hc, rfl⟩ := List.mem_map.mp hb
  exact (isDigit_toUInt8 (hcs c hc)).1

/-- A number in decimal digits, without leading zeros. -/
def toDecimal (n : ℕ) : Bytes := (Nat.toDigits 10 n).map Char.toUInt8

theorem isDigit_of_mem_toDecimal {n : ℕ} {b : UInt8} (hb : b ∈ toDecimal n) : isDigit b :=
  isDigit_of_mem_map (fun _ hc => Nat.isDigit_of_mem_toDigits (by decide) (by decide) hc) hb

theorem toDecimal_ne_nil (n : ℕ) : toDecimal n ≠ [] := fun h =>
  Nat.toDigits_ne_nil (List.map_eq_nil_iff.mp h)

theorem toDecimal_inj {n m : ℕ} (h : toDecimal n = toDecimal m) : n = m := by
  have hchars : ∀ k, (toDecimal k).map (fun b => Char.ofNat b.toNat) = Nat.toDigits 10 k := by
    intro k
    rw [toDecimal, List.map_map]
    refine List.map_congr_left (g := id) (fun c hc => ?_) |>.trans (List.map_id _)
    exact (isDigit_toUInt8 (Nat.isDigit_of_mem_toDigits (by decide) (by decide) hc)).2
  have hdigits : Nat.toDigits 10 n = Nat.toDigits 10 m := by rw [← hchars, h, hchars]
  rw [← Nat.ofDigitChars_ten_toDigits (n := n), hdigits, Nat.ofDigitChars_ten_toDigits]

end Yalantinglibs
