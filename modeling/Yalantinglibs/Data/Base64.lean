import Mathlib.Data.List.Nodup
import Mathlib.Data.List.TakeWhile
import Yalantinglibs.Data.ByteCodec

/-!
# Base64

RFC 4648: groups of three bytes are written as four digits of six bits each. A last group of one or
two bytes gives two or three digits, to which padding may be added.

## Main definitions

* `digits`, `ofDigits` — the digits of a byte string, and back
* `Alphabet` — characters for the digits, and one for padding
* `Alphabet.encode`, `Alphabet.decode` — texts

## Main results

* `ofDigits_digits` — the digits give the bytes back
* `Alphabet.decode_encode` — and so does the text, padded or not
* `Alphabet.length_encode` — how long a padded text is
-/

set_option autoImplicit false

namespace Yalantinglibs.Base64

/-- The number of three bytes. -/
def groupOf (a b c : UInt8) : ℕ := a.toNat * 2 ^ 16 + b.toNat * 2 ^ 8 + c.toNat

/-- The four digits of a number of 24 bits. -/
def groupDigits (n : ℕ) : List ℕ := [n / 2 ^ 18 % 64, n / 2 ^ 12 % 64, n / 2 ^ 6 % 64, n % 64]

/-- The digits of a byte string. -/
def digits : Bytes → List ℕ
  | a :: b :: c :: s => groupDigits (groupOf a b c) ++ digits s
  | [a, b] => (groupDigits (groupOf a b 0)).take 3
  | [a] => (groupDigits (groupOf a 0 0)).take 2
  | [] => []

/-- The bytes of a number of 24 bits. -/
def groupBytes (n : ℕ) : Bytes :=
  [UInt8.ofNat (n / 2 ^ 16), UInt8.ofNat (n / 2 ^ 8), UInt8.ofNat n]

/-- The number of four digits. -/
def groupOfDigits (d₀ d₁ d₂ d₃ : ℕ) : ℕ := d₀ * 2 ^ 18 + d₁ * 2 ^ 12 + d₂ * 2 ^ 6 + d₃

/-- The bytes that the digits stand for. -/
def ofDigits : List ℕ → Bytes
  | d₀ :: d₁ :: d₂ :: d₃ :: ds => groupBytes (groupOfDigits d₀ d₁ d₂ d₃) ++ ofDigits ds
  | [d₀, d₁, d₂] => (groupBytes (groupOfDigits d₀ d₁ d₂ 0)).take 2
  | [d₀, d₁] => (groupBytes (groupOfDigits d₀ d₁ 0 0)).take 1
  | _ => []

section Digits

variable {s : Bytes} {d n : ℕ}

theorem groupOf_lt (a b c : UInt8) : groupOf a b c < 2 ^ 24 := by
  have ha := a.toNat_lt
  have hb := b.toNat_lt
  have hc := c.toNat_lt
  rw [groupOf]
  omega

/-- The four digits of a number give it back. -/
theorem groupOfDigits_groupDigits (hn : n < 2 ^ 24) :
    groupOfDigits (n / 2 ^ 18 % 64) (n / 2 ^ 12 % 64) (n / 2 ^ 6 % 64) (n % 64) = n := by
  rw [groupOfDigits]
  omega

theorem groupBytes_groupOf (a b c : UInt8) : groupBytes (groupOf a b c) = [a, b, c] := by
  have ha := a.toNat_lt
  have hb := b.toNat_lt
  have hc := c.toNat_lt
  have hmod : ∀ (m : ℕ) (x : UInt8), m % 256 = x.toNat → UInt8.ofNat m = x := by
    intro m x hm
    rw [← UInt8.toNat_inj, UInt8.toNat_ofNat']
    exact hm
  rw [groupBytes, groupOf, hmod _ a (by omega), hmod _ b (by omega), hmod _ c (by omega)]

/-- The digits give the bytes back. -/
theorem ofDigits_digits (s : Bytes) : ofDigits (digits s) = s := by
  induction s using digits.induct with
  | case1 a b c s ih =>
    have hgroup : groupOfDigits (groupOf a b c / 2 ^ 18 % 64) (groupOf a b c / 2 ^ 12 % 64)
        (groupOf a b c / 2 ^ 6 % 64) (groupOf a b c % 64) = groupOf a b c :=
      groupOfDigits_groupDigits (groupOf_lt a b c)
    rw [digits, groupDigits, List.cons_append, List.cons_append, List.cons_append,
      List.cons_append, List.nil_append, ofDigits, hgroup, groupBytes_groupOf, ih]
    rfl
  | case2 a b =>
    -- the last digit of the group has no bits of the two bytes
    have hlast : groupOf a b 0 % 64 = 0 := by
      rw [groupOf, UInt8.toNat_zero]
      omega
    have hgroup := groupOfDigits_groupDigits (groupOf_lt a b 0)
    rw [hlast] at hgroup
    show ofDigits [_, _, _] = _
    rw [ofDigits, hgroup, groupBytes_groupOf]
    rfl
  | case3 a =>
    have hlast : groupOf a 0 0 % 64 = 0 ∧ groupOf a 0 0 / 2 ^ 6 % 64 = 0 := by
      rw [groupOf, UInt8.toNat_zero]
      omega
    have hgroup := groupOfDigits_groupDigits (groupOf_lt a 0 0)
    rw [hlast.1, hlast.2] at hgroup
    show ofDigits [_, _] = _
    rw [ofDigits, hgroup, groupBytes_groupOf]
    rfl
  | case4 => rfl

theorem digits_lt (h : d ∈ digits s) : d < 64 := by
  have hgroup : ∀ n, ∀ d ∈ groupDigits n, d < 64 := by
    intro n d hd
    simp only [groupDigits, List.mem_cons, List.not_mem_nil, or_false] at hd
    omega
  induction s using digits.induct with
  | case1 a b c s ih =>
    rw [digits, List.mem_append] at h
    exact h.elim (hgroup _ d) ih
  | case2 a b => exact hgroup _ d (List.mem_of_mem_take h)
  | case3 a => exact hgroup _ d (List.mem_of_mem_take h)
  | case4 => cases h

/-- Four digits for three bytes, and one more than there are bytes in a last group. -/
theorem length_digits (s : Bytes) : (digits s).length = (4 * s.length + 2) / 3 := by
  induction s using digits.induct with
  | case1 a b c s ih =>
    rw [digits, List.length_append, ih, groupDigits]
    simp only [List.length_cons, List.length_nil]
    omega
  | case2 a b => simp [digits, groupDigits]
  | case3 a => simp [digits, groupDigits]
  | case4 => rfl

end Digits

/-! ### Texts -/

/-- Characters for the digits, and a character for padding. -/
structure Alphabet where
  chars : Bytes
  pad : UInt8
  length_chars : chars.length = 64
  nodup : chars.Nodup
  pad_notMem : pad ∉ chars

namespace Alphabet

variable (A : Alphabet)

/-- The character of a digit. -/
def char (d : ℕ) : UInt8 := A.chars.getD d A.pad

/-- The text of a byte string. Padding makes the length a multiple of four. -/
def encode (padded : Bool) (s : Bytes) : Bytes :=
  (digits s).map A.char ++ if padded then List.replicate ((3 - s.length % 3) % 3) A.pad else []

/-- The bytes of a text, up to its padding. -/
def decode (text : Bytes) : Option Bytes :=
  ((text.takeWhile (· ≠ A.pad)).mapM fun c => A.chars.idxOf? c).map ofDigits

variable {A}

theorem char_eq {d : ℕ} (hd : d < A.chars.length) : A.char d = A.chars[d] := by
  rw [char, List.getD_eq_getElem?_getD, List.getElem?_eq_getElem hd, Option.getD_some]

/-- A character is that of one digit. -/
theorem idxOf?_char {d : ℕ} (hd : d < 64) : A.chars.idxOf? (A.char d) = some d := by
  have hlength : d < A.chars.length := A.length_chars.symm ▸ hd
  rw [char_eq hlength, List.idxOf?_eq_some_iff]
  refine ⟨hlength, rfl, fun j hj heq => ?_⟩
  exact absurd (List.Nodup.getElem_inj_iff A.nodup |>.mp heq) hj.ne

theorem char_ne_pad {d : ℕ} (hd : d < 64) : A.char d ≠ A.pad := by
  have hlength : d < A.chars.length := A.length_chars.symm ▸ hd
  rw [char_eq hlength]
  intro h
  exact A.pad_notMem (h ▸ List.getElem_mem _)

theorem mapM_idxOf?_char {ds : List ℕ} (hds : ∀ d ∈ ds, d < 64) :
    (ds.map A.char).mapM (fun c => A.chars.idxOf? c) = some ds := by
  induction ds with
  | nil => rfl
  | cons d ds ih =>
    rw [List.forall_mem_cons] at hds
    rw [List.map_cons, List.mapM_cons, idxOf?_char hds.1, ih hds.2]
    rfl

/-- The text of a byte string stands for it. -/
theorem decode_encode (padded : Bool) (s : Bytes) : A.decode (A.encode padded s) = some s := by
  have hchars : ∀ c ∈ (digits s).map A.char, decide (c ≠ A.pad) = true := by
    intro c hc
    obtain ⟨d, hd, rfl⟩ := List.mem_map.mp hc
    exact decide_eq_true (char_ne_pad (digits_lt hd))
  have hpad : (if padded then List.replicate ((3 - s.length % 3) % 3) A.pad else []).takeWhile
      (fun c => decide (c ≠ A.pad)) = [] := by
    cases padded with
    | false => rfl
    | true =>
      rw [if_pos rfl, List.takeWhile_replicate, if_neg]
      simp
  rw [decode, encode, List.takeWhile_append_of_pos hchars, hpad, List.append_nil,
    mapM_idxOf?_char fun d hd => digits_lt hd, Option.map_some, ofDigits_digits]

/-- A padded text has four characters for each group. -/
theorem length_encode (s : Bytes) : (A.encode true s).length = 4 * ((s.length + 2) / 3) := by
  rw [encode, if_pos rfl, List.length_append, List.length_map, length_digits,
    List.length_replicate]
  omega

end Alphabet

end Yalantinglibs.Base64
