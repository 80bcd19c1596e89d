import Yalantinglibs.Cinatra.PicoHttpParser
import Yalantinglibs.Data.Base64
import Yalantinglibs.Data.ByteSearch

/-!
# The two encoders of Base64

`base64_encode` of `cinatra/utils.hpp`, which collects three characters at a time in an array of
`char`, and `code_utils::base64_encode` of `cinatra/url_encode_decode.hpp`, which takes three bytes
at a time as a number of 24 bits and can write the form for URLs.

## Main definitions

* `base64Encode`, `CodeUtils.base64Encode` — the encoders
* `base64Chars`, `mapUrlEncoded` — their alphabets

## Main results

* `base64_agree` — both write the Base64 of RFC 4648
-/

set_option autoImplicit false

namespace Yalantinglibs.Cinatra

open Base64 ByteSearch

/-! ### The alphabets -/

/-- `base64_chars`, which is `MAP` too. -/
def base64Chars : Bytes := ascii "ABCDEFGHIJKLMNOPQRSTUVWXYZabcdefghijklmnopqrstuvwxyz0123456789+/"

/-- `MAP_URL_ENCODED`. -/
def mapUrlEncoded : Bytes := ascii "ABCDEFGHIJKLMNOPQRSTUVWXYZabcdefghijklmnopqrstuvwxyz0123456789-_"

/-- The code of `'='`. -/
def equalsSign : UInt8 := 0x3D

def standard : Alphabet := ⟨base64Chars, equalsSign, by decide, by decide, by decide⟩

def urlSafe : Alphabet := ⟨mapUrlEncoded, equalsSign, by decide, by decide, by decide⟩

/-! ### Three characters in an array -/

/-- A `char` in an expression is an `int`, which is negative from `0x80` on. -/
def promote (c : UInt8) : BitVec 32 := c.toBitVec.signExtend 32

/-- `char_array_4`, of the three characters. -/
def charArray4 (c₀ c₁ c₂ : UInt8) : List UInt8 :=
  [(promote c₀ &&& 0xFC).sshiftRight 2,
   ((promote c₀ &&& 0x03) <<< 4) + (promote c₁ &&& 0xF0).sshiftRight 4,
   ((promote c₁ &&& 0x0F) <<< 2) + (promote c₂ &&& 0xC0).sshiftRight 6,
   promote c₂ &&& 0x3F].map fun x => UInt8.ofBitVec (x.setWidth 8)

/-- `base64_chars[c]`. -/
def base64Char (c : UInt8) : UInt8 := base64Chars.getD c.toNat 0

/-- The loop over the characters: what was written, and what `char_array_3` holds at the end. -/
def base64EncodeLoop : Bytes → Bytes → Bytes → Bytes × Bytes
  | ret, chars, [] => (ret, chars)
  | ret, chars, c :: s =>
    match chars ++ [c] with
    | [c₀, c₁, c₂] => base64EncodeLoop (ret ++ (charArray4 c₀ c₁ c₂).map base64Char) [] s
    | chars => base64EncodeLoop ret chars s

/-- What is written behind the loop. -/
def base64Tail (chars : Bytes) : Bytes :=
  if chars = [] then []
  else
    ((charArray4 (chars.getD 0 0) (chars.getD 1 0) (chars.getD 2 0)).take (chars.length + 1)).map
      base64Char ++ List.replicate (3 - chars.length) equalsSign

/-- `base64_encode`. -/
def base64Encode (s : Bytes) : Bytes :=
  let r := base64EncodeLoop [] [] s
  r.1 ++ base64Tail r.2

/-! ### A number of 24 bits -/

namespace CodeUtils

/-- The characters of `quad` at the shifts. -/
def quadChars (map : Bytes) (quad : UInt32) : Bytes :=
  [map.getD (quad >>> 18).toNat 0, map.getD ((quad >>> 12) &&& 63).toNat 0,
    map.getD ((quad >>> 6) &&& 63).toNat 0, map.getD (quad &&& 63).toNat 0]

/-- `code_utils::base64_encode`, without the character NUL that it puts behind. -/
def base64Encode (urlEncoded : Bool) : Bytes → Bytes
  | s₀ :: s₁ :: s₂ :: s =>
    quadChars (if urlEncoded then mapUrlEncoded else base64Chars)
      (s₀.toUInt32 <<< 16 ||| s₁.toUInt32 <<< 8 ||| s₂.toUInt32) ++ base64Encode urlEncoded s
  | [s₀, s₁] =>
    (quadChars (if urlEncoded then mapUrlEncoded else base64Chars)
      (s₀.toUInt32 <<< 16 ||| s₁.toUInt32 <<< 8)).take 3 ++
        if urlEncoded then [] else [equalsSign]
  | [s₀] =>
    (quadChars (if urlEncoded then mapUrlEncoded else base64Chars) (s₀.toUInt32 <<< 16)).take 2 ++
      if urlEncoded then [] else [equalsSign, equalsSign]
  | [] => []

end CodeUtils

/-! ### The digits of a group -/

section Groups

variable (a b c : UInt8)

/-- The four characters of the array are the digits of the group. -/
theorem charArray4_toNat : (charArray4 a b c).map UInt8.toNat = groupDigits (groupOf a b c) := by
  have key : ∀ n < 256, let x := promote (UInt8.ofNat n)
      ((x &&& 0xFC).sshiftRight 2).toNat = n / 4 ∧ ((x &&& 0x03) <<< 4).toNat = n % 4 * 16 ∧
      ((x &&& 0xF0).sshiftRight 4).toNat = n / 16 ∧ ((x &&& 0x0F) <<< 2).toNat = n % 16 * 4 ∧
      ((x &&& 0xC0).sshiftRight 6).toNat = n / 64 ∧ (x &&& 0x3F).toNat = n % 64 := by
    decide +kernel
  have ha := key a.toNat a.toNat_lt
  have hb := key b.toNat b.toNat_lt
  have hc := key c.toNat c.toNat_lt
  rw [UInt8.ofNat_toNat] at ha hb hc
  dsimp only at ha hb hc
  have hchar : ∀ x : BitVec 32, (UInt8.ofBitVec (x.setWidth 8)).toNat = x.toNat % 256 := by
    intro x
    exact BitVec.toNat_setWidth 8 x
  have hlt := And.intro a.toNat_lt (And.intro b.toNat_lt c.toNat_lt)
  simp only [charArray4, List.map_cons, List.map_nil, hchar, BitVec.toNat_add, ha, hb, hc,
    groupDigits, groupOf, List.cons.injEq, and_true]
  omega

theorem quadChars_eq (A : Alphabet) :
    CodeUtils.quadChars A.chars (a.toUInt32 <<< 16 ||| b.toUInt32 <<< 8 ||| c.toUInt32) =
      (groupDigits (groupOf a b c)).map A.char := by
  have ha := a.toNat_lt
  have hb := b.toNat_lt
  have hc := c.toNat_lt
  have hquad : (a.toUInt32 <<< 16 ||| b.toUInt32 <<< 8 ||| c.toUInt32).toNat = groupOf a b c := by
    have h₁ : (a.toUInt32 <<< 16).toNat = 0 + 256 * (0 + 256 * a.toNat) := by
      rw [UInt32.toNat_shiftLeft, UInt8.toNat_toUInt32, Nat.shiftLeft_eq]
      show a.toNat * 2 ^ 16 % 2 ^ 32 = _
      omega
    have h₂ : (b.toUInt32 <<< 8).toNat = 0 + 256 * (b.toNat + 256 * 0) := by
      rw [UInt32.toNat_shiftLeft, UInt8.toNat_toUInt32, Nat.shiftLeft_eq]
      show b.toNat * 2 ^ 8 % 2 ^ 32 = _
      omega
    have h₃ : c.toUInt32.toNat = c.toNat + 256 * 0 := UInt8.toNat_toUInt32 c
    rw [UInt32.toNat_or, UInt32.toNat_or, h₁, h₂, h₃, or_add (by decide) (by decide),
      or_add (by decide) hb, or_add (by decide) hc, groupOf]
    simp only [Nat.zero_or, Nat.or_zero]
    omega
  have hand : ∀ x : UInt32, (x &&& 63).toNat = x.toNat % 64 := by
    intro x
    rw [UInt32.toNat_and]
    exact Nat.and_two_pow_sub_one_eq_mod x.toNat 6
  have hpad : ∀ d, d < 64 → A.chars.getD d 0 = A.char d := by
    intro d hd
    rw [← A.length_chars] at hd
    rw [Alphabet.char_eq hd, List.getD_eq_getElem?_getD, List.getElem?_eq_getElem hd,
      Option.getD_some]
  have hlt := groupOf_lt a b c
  have hfirst : groupOf a b c / 2 ^ 18 % 64 = groupOf a b c / 2 ^ 18 := by omega
  rw [CodeUtils.quadChars, groupDigits, hand, hand, hand, UInt32.toNat_shiftRight,
    UInt32.toNat_shiftRight, UInt32.toNat_shiftRight, hquad, Nat.shiftRight_eq_div_pow,
    Nat.shiftRight_eq_div_pow, Nat.shiftRight_eq_div_pow, hfirst]
  show [_, _, _, _] = [A.char _, A.char _, A.char _, A.char _]
  rw [← hpad _ (by omega), ← hpad _ (Nat.mod_lt _ (by decide)), ← hpad _ (Nat.mod_lt _ (by decide)),
    ← hpad _ (Nat.mod_lt _ (by decide))]
  rfl

/-- The characters that are written for the array. -/
theorem map_base64Char (a b c : UInt8) (n : ℕ) :
    ((charArray4 a b c).take n).map base64Char =
      ((groupDigits (groupOf a b c)).take n).map standard.char := by
  have hchars : (charArray4 a b c).map base64Char =
      (groupDigits (groupOf a b c)).map standard.char := by
    rw [← charArray4_toNat, List.map_map]
    apply List.map_congr_left
    intro x hx
    have hlt : x.toNat < standard.chars.length := by
      rw [standard.length_chars]
      have hmem : x.toNat ∈ groupDigits (groupOf a b c) := by
        rw [← charArray4_toNat]
        exact List.mem_map_of_mem hx
      simp only [groupDigits, List.mem_cons, List.not_mem_nil, or_false] at hmem
      omega
    rw [Function.comp_apply, Alphabet.char_eq hlt, base64Char, List.getD_eq_getElem?_getD]
    exact congrArg (Option.getD · 0) (List.getElem?_eq_getElem hlt)
  rw [List.map_take, hchars, List.map_take]

end Groups

/-! ### Whole texts -/

theorem base64EncodeLoop_eq (ret s : Bytes) :
    (base64EncodeLoop ret [] s).1 ++ base64Tail (base64EncodeLoop ret [] s).2 =
      ret ++ standard.encode true s := by
  induction s using digits.induct generalizing ret with
  | case1 a b c s ih =>
    have hloop : base64EncodeLoop ret [] (a :: b :: c :: s) =
        base64EncodeLoop (ret ++ (charArray4 a b c).map base64Char) [] s := rfl
    have hchars := map_base64Char a b c 4
    have hlength : (a :: b :: c :: s).length % 3 = s.length % 3 := by
      simp only [List.length_cons]
      omega
    rw [hloop, ih, List.append_assoc, Alphabet.encode, Alphabet.encode, digits, List.map_append,
      hlength, List.append_assoc]
    exact congrArg (fun x => ret ++ (x ++ _)) hchars
  | case2 a b =>
    have hchars := map_base64Char a b 0 3
    exact congrArg (fun x => ret ++ (x ++ [equalsSign])) hchars
  | case3 a =>
    have hchars := map_base64Char a 0 0 2
    exact congrArg (fun x => ret ++ (x ++ [equalsSign, equalsSign])) hchars
  | case4 => rfl

theorem base64Encode_eq (s : Bytes) : base64Encode s = standard.encode true s :=
  base64EncodeLoop_eq [] s

theorem CodeUtils.base64Encode_eq (urlEncoded : Bool) (s : Bytes) :
    CodeUtils.base64Encode urlEncoded s =
      (if urlEncoded then urlSafe else standard).encode (!urlEncoded) s := by
  have halphabet : (if urlEncoded then mapUrlEncoded else base64Chars) =
      (if urlEncoded then urlSafe else standard).chars := by
    cases urlEncoded <;> rfl
  induction s using digits.induct with
  | case1 a b c s ih =>
    have hlength : (a :: b :: c :: s).length % 3 = s.length % 3 := by
      simp only [List.length_cons]
      omega
    rw [CodeUtils.base64Encode, halphabet, quadChars_eq, ih, Alphabet.encode, Alphabet.encode,
      digits, List.map_append, hlength, List.append_assoc]
  | case2 a b =>
    have hchars := quadChars_eq a b 0 (if urlEncoded then urlSafe else standard)
    have hzero : (0 : UInt8).toUInt32 = 0 := rfl
    rw [hzero, UInt32.or_zero] at hchars
    rw [CodeUtils.base64Encode, halphabet, hchars, ← List.map_take]
    cases urlEncoded <;> rfl
  | case3 a =>
    have hchars := quadChars_eq a 0 0 (if urlEncoded then urlSafe else standard)
    have hzero : (0 : UInt8).toUInt32 = 0 := rfl
    have hshift : (0 : UInt32) <<< 8 = 0 := rfl
    rw [hzero, hshift, UInt32.or_zero, UInt32.or_zero] at hchars
    rw [CodeUtils.base64Encode, halphabet, hchars, ← List.map_take]
    cases urlEncoded <;> rfl
  | case4 => cases urlEncoded <;> rfl

/-- The encoders agree: they write the padded Base64 of RFC 4648, which stands for the bytes and has
four characters for every three of them, and for URLs the same digits in the other alphabet,
without padding. -/
theorem base64_agree (s : Bytes) :
    base64Encode s = CodeUtils.base64Encode false s ∧
    base64Encode s = standard.encode true s ∧
    standard.decode (base64Encode s) = some s ∧
    (base64Encode s).length = 4 * ((s.length + 2) / 3) ∧
    CodeUtils.base64Encode true s = (digits s).map urlSafe.char ∧
    urlSafe.decode (CodeUtils.base64Encode true s) = some s := by
  have hurl : CodeUtils.base64Encode true s = urlSafe.encode false s :=
    CodeUtils.base64Encode_eq true s
  have hplain : CodeUtils.base64Encode false s = standard.encode true s :=
    CodeUtils.base64Encode_eq false s
  rw [hplain, hurl, base64Encode_eq]
  exact ⟨rfl, rfl, Alphabet.decode_encode true s, Alphabet.length_encode s,
    List.append_nil _, Alphabet.decode_encode false s⟩

end Yalantinglibs.Cinatra
