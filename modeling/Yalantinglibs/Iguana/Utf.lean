import Yalantinglibs.Data.Ascii
import Mathlib.Algebra.Order.BigOperators.Group.List
import Mathlib.Data.List.Basic
import Mathlib.Data.Nat.Bitwise

/-!
# UTF-8 and the hexadecimal escapes of iguana

`iguana/detail/utf.hpp`, and `write_unicode_to_string` of `iguana/util.hpp`, which writes a code
point of a text as one or two escapes of four hexadecimal digits.

A text is valid UTF-8 if it is the encoding of a list of scalar values, which is what `Char`
holds.

## Main definitions

* `Fault`, `Parsed` — what a reader ends with
* `decodeUtf8`, `encodeUtf8` — one code point
* `parseUnicodeHex4`, `hex4` — four hexadecimal digits
* `writeUnicodeToString` — the escapes of a code point
* `writeChars` — the loop of a writer
* `utf8`, `readAs` — a text, and what a reader makes of the escapes of its characters

## Main results

* `encodeUtf8_toNat`, `decodeUtf8_append` — both are right about scalar values
* `parseUnicodeHex4_append` — four digits are read back
* `flatMap_readAs_eq_iff` — the texts that survive their escapes
-/

set_option autoImplicit false

namespace Yalantinglibs.Iguana

/-- What stops a reader or a writer: an exception with its text, or a bound on a loop that was
too small. -/
inductive Fault
  | runtimeError (what : String)
  | tooDeep
  deriving DecidableEq, Repr

/-- A value that was read, and the bytes that are left. -/
abbrev Parsed (α : Type) := Except Fault (α × Bytes)

/-- An exception of the library. -/
def raise {α : Type} (what : String) : Except Fault α := .error (.runtimeError what)

/-! ### Code points -/

/-- `GetRange`. -/
def getRange (c : UInt8) : ℕ :=
  let c := c.toNat
  if c < 0x80 then 0
  else if c < 0x90 then 0x10
  else if c < 0xA0 then 0x40
  else if c < 0xC0 then 0x20
  else if c < 0xC2 then 8
  else if c < 0xE0 then 2
  else if c < 0xE1 then 10
  else if c < 0xED then 3
  else if c < 0xEE then 4
  else if c < 0xF0 then 3
  else if c < 0xF1 then 11
  else if c < 0xF4 then 6
  else if c < 0xF5 then 5
  else 8

/-- The state of `decode_utf8`. -/
structure CodePoint where
  codepoint : ℕ
  result : Bool
  rest : Bytes
  deriving DecidableEq, Repr

/-- `copy` and then `trans(mask)`. Behind the end of a string the terminator is read. -/
def CodePoint.copyTrans (mask : ℕ) (d : CodePoint) : CodePoint where
  codepoint := d.codepoint <<< 6 ||| (d.rest.headD 0).toNat &&& 0x3F
  result := d.result && getRange (d.rest.headD 0) &&& mask ≠ 0
  rest := d.rest.tail

/-- `tail`. -/
def CodePoint.tail (d : CodePoint) : CodePoint := d.copyTrans 0x70

/-- The `switch` of `decode_utf8` over the kind of the first byte. -/
def CodePoint.decodeTail (type : ℕ) (lead : CodePoint) : CodePoint :=
  match type with
  | 2 => lead.tail
  | 3 => lead.tail.tail
  | 4 => (lead.copyTrans 0x50).tail
  | 5 => (lead.copyTrans 0x10).tail.tail
  | 6 => lead.tail.tail.tail
  | 10 => (lead.copyTrans 0x20).tail
  | 11 => (lead.copyTrans 0x60).tail.tail
  | _ => { lead with result := false }

/-- `decode_utf8`. -/
def decodeUtf8 (bs : Bytes) : CodePoint :=
  let c := bs.headD 0
  if c.toNat &&& 0x80 = 0 then ⟨c.toNat, true, bs.tail⟩
  else
    let type := getRange c
    CodePoint.decodeTail type
      ⟨if 32 ≤ type then 0 else (0xFF >>> type) &&& c.toNat, true, bs.tail⟩

/-- `encode_utf8`. -/
def encodeUtf8 (codepoint : ℕ) : Bytes :=
  if codepoint ≤ 0x7F then [UInt8.ofNat (codepoint &&& 0xFF)]
  else if codepoint ≤ 0x7FF then
    [UInt8.ofNat (0xC0 ||| (codepoint >>> 6 &&& 0xFF)),
      UInt8.ofNat (0x80 ||| (codepoint &&& 0x3F))]
  else if codepoint ≤ 0xFFFF then
    [UInt8.ofNat (0xE0 ||| (codepoint >>> 12 &&& 0xFF)),
      UInt8.ofNat (0x80 ||| (codepoint >>> 6 &&& 0x3F)),
      UInt8.ofNat (0x80 ||| (codepoint &&& 0x3F))]
  else
    [UInt8.ofNat (0xF0 ||| (codepoint >>> 18 &&& 0xFF)),
      UInt8.ofNat (0x80 ||| (codepoint >>> 12 &&& 0x3F)),
      UInt8.ofNat (0x80 ||| (codepoint >>> 6 &&& 0x3F)),
      UInt8.ofNat (0x80 ||| (codepoint &&& 0x3F))]

/-! ### Escapes -/

/-- `hexDigits`. -/
def hexDigits : Bytes :=
  codes ['0', '1', '2', '3', '4', '5', '6', '7', '8', '9', 'A', 'B', 'C', 'D', 'E', 'F']

/-- The digit of the low four bits. -/
def hexDigit (v : ℕ) : UInt8 := hexDigits.getD (v &&& 15) 0

/-- The four digits of a number of 16 bits. -/
def hex4 (v : ℕ) : Bytes :=
  [hexDigit (v >>> 12), hexDigit (v >>> 8), hexDigit (v >>> 4), hexDigit v]

/-- The value of a digit. -/
def hexValue (c : UInt8) : Option ℕ :=
  let c := c.toNat
  if 0x30 ≤ c ∧ c ≤ 0x39 then some (c - 0x30)
  else if 0x41 ≤ c ∧ c ≤ 0x46 then some (c - 0x41 + 10)
  else if 0x61 ≤ c ∧ c ≤ 0x66 then some (c - 0x61 + 10)
  else none

/-- The loop of `parse_unicode_hex4`. -/
def parseHexDigits : ℕ → ℕ → Bytes → Parsed ℕ
  | 0, codepoint, bs => .ok (codepoint, bs)
  | n + 1, codepoint, bs =>
    match hexValue (bs.headD 0) with
    | some d => parseHexDigits n ((codepoint <<< 4) + d) bs.tail
    | none => raise "Invalid Unicode Escape Hex"

/-- `parse_unicode_hex4`. -/
def parseUnicodeHex4 (bs : Bytes) : Parsed ℕ := parseHexDigits 4 0 bs

/-- `write_unicode_to_string` for the code point at the front of a text: what is written, and
the text behind the code point. -/
def writeUnicodeToString (isXmlSerialization : Bool) (it : Bytes) : Parsed Bytes :=
  let d := decodeUtf8 it
  let start := if isXmlSerialization then codes ['&', '#', 'x'] else codes ['\\', 'u']
  let between := if isXmlSerialization then codes [';', '&', '#', 'x'] else codes ['\\', 'u']
  let stop := if isXmlSerialization then codes [';'] else []
  if !d.result then raise "illegal unicode character"
  else if d.codepoint ≤ 0xD7FF ∨ (0xE000 ≤ d.codepoint ∧ d.codepoint ≤ 0xFFFF) then
    .ok (start ++ hex4 d.codepoint ++ stop, d.rest)
  else if d.codepoint < 0x010000 ∨ 0x10FFFF < d.codepoint then raise "illegal codepoint"
  else
    -- a surrogate pair
    let s := d.codepoint - 0x010000
    let lead := (s >>> 10) + 0xD800
    let trail := (s &&& 0x3FF) + 0xDC00
    .ok (start ++ hex4 lead ++ between ++ hex4 trail ++ stop, d.rest)

/-! ### Scalar values -/

section Scalars

/-- The ranges of the scalar values. -/
theorem toNat_range (c : Char) : c.toNat < 0xD800 ∨ 0xDFFF < c.toNat ∧ c.toNat < 0x110000 := by
  rcases c.valid with h | h
  · exact .inl h
  · exact .inr h

private theorem and_low {v k : ℕ} (m : ℕ) (hm : m = 2 ^ k - 1) : v &&& m = v % 2 ^ k := by
  rw [hm]
  exact Nat.and_two_pow_sub_one_eq_mod v k

private theorem shift_or {a b : ℕ} (hb : b < 64) : a <<< 6 ||| b = a * 64 + b := by
  rw [← Nat.shiftLeft_add_eq_or_of_lt (show b < 2 ^ 6 from hb), Nat.shiftLeft_eq]

private theorem or_lead {x : ℕ} (hx : x < 64) : 0x80 ||| x = x + 0x80 := by
  have key : ∀ x < 64, 0x80 ||| x = x + 0x80 := by decide +kernel
  exact key x hx

private theorem or_leads {x : ℕ} :
    (x < 32 → 0xC0 ||| x = x + 0xC0) ∧ (x < 16 → 0xE0 ||| x = x + 0xE0) ∧
      (x < 8 → 0xF0 ||| x = x + 0xF0) := by
  refine ⟨fun hx => ?_, fun hx => ?_, fun hx => ?_⟩
  · have key : ∀ x < 32, 0xC0 ||| x = x + 0xC0 := by decide +kernel
    exact key x hx
  · have key : ∀ x < 16, 0xE0 ||| x = x + 0xE0 := by decide +kernel
    exact key x hx
  · have key : ∀ x < 8, 0xF0 ||| x = x + 0xF0 := by decide +kernel
    exact key x hx

/-- `encode_utf8` writes the encoding of a scalar value. -/
theorem encodeUtf8_toNat (c : Char) : encodeUtf8 c.toNat = String.utf8EncodeChar c := by
  have hc : c.toNat < 0x110000 := by
    rcases toNat_range c with h | h <;> omega
  have hval : c.val.toNat = c.toNat := rfl
  simp only [encodeUtf8, String.utf8EncodeChar, hval]
  generalize c.toNat = v at hc
  simp only [Nat.shiftRight_eq_div_pow, and_low 0xFF (k := 8) rfl, and_low 0x3F (k := 6) rfl]
  split_ifs with h1 h2 h3
  · rw [Nat.mod_eq_of_lt (by omega)]
  · rw [or_leads.1 (by omega), or_lead (by omega)]
    congr 2
    omega
  · rw [or_leads.2.1 (by omega), or_lead (by omega), or_lead (by omega)]
    congr 2
    omega
  · rw [or_leads.2.2 (by omega), or_lead (by omega), or_lead (by omega), or_lead (by omega)]
    congr 2
    omega

/-- A byte that continues a code point and passes the mask. -/
private theorem copyTrans_cons {cp x mask : ℕ} {rest : Bytes} (hx : x < 64)
    (hmask : getRange (UInt8.ofNat (x + 0x80)) &&& mask ≠ 0) :
    CodePoint.copyTrans mask ⟨cp, true, UInt8.ofNat (x + 0x80) :: rest⟩ =
      ⟨cp * 64 + x, true, rest⟩ := by
  have hlow : ∀ x < 64, (UInt8.ofNat (x + 0x80)).toNat &&& 0x3F = x := by decide +kernel
  simp only [CodePoint.copyTrans, List.headD_cons, List.tail_cons, hlow x hx, shift_or hx, hmask,
    ne_eq, not_false_eq_true, decide_true, Bool.and_true]

private theorem tail_cons {cp x : ℕ} {rest : Bytes} (hx : x < 64) :
    CodePoint.tail ⟨cp, true, UInt8.ofNat (x + 0x80) :: rest⟩ = ⟨cp * 64 + x, true, rest⟩ := by
  have key : ∀ x < 64, getRange (UInt8.ofNat (x + 0x80)) &&& 0x70 ≠ 0 := by decide +kernel
  exact copyTrans_cons hx (key x hx)

private theorem decodeUtf8_eq (b : UInt8) (rest : Bytes) :
    decodeUtf8 (b :: rest) =
      if b.toNat &&& 0x80 = 0 then ⟨b.toNat, true, rest⟩
      else
        CodePoint.decodeTail (getRange b)
          ⟨if 32 ≤ getRange b then 0 else (0xFF >>> getRange b) &&& b.toNat, true, rest⟩ := rfl

/-- The first byte of a code point of several bytes. -/
private theorem decodeUtf8_cons {b : UInt8} {type cp : ℕ} {rest : Bytes}
    (hb : b.toNat &&& 0x80 ≠ 0 ∧ getRange b = type ∧ type < 32 ∧
      (0xFF >>> type) &&& b.toNat = cp) :
    decodeUtf8 (b :: rest) = CodePoint.decodeTail type ⟨cp, true, rest⟩ := by
  obtain ⟨h80, rfl, hlt, rfl⟩ := hb
  rw [decodeUtf8_eq, if_neg h80, if_neg (Nat.not_le.mpr hlt)]

/-- `decode_utf8` reads a scalar value, and stops behind it. -/
theorem decodeUtf8_append (c : Char) (rest : Bytes) :
    decodeUtf8 (String.utf8EncodeChar c ++ rest) = ⟨c.toNat, true, rest⟩ := by
  have hrange := toNat_range c
  have hval : c.val.toNat = c.toNat := rfl
  simp only [String.utf8EncodeChar, hval]
  generalize c.toNat = v at hrange
  split_ifs with h1 h2 h3
  · have key : ∀ v ≤ 0x7F, (UInt8.ofNat v).toNat &&& 0x80 = 0 ∧ (UInt8.ofNat v).toNat = v := by
      decide +kernel
    rw [List.cons_append, decodeUtf8_eq, if_pos (key v h1).1, (key v h1).2, List.nil_append]
  · have key : ∀ x < 32, 2 ≤ x → (UInt8.ofNat (x + 0xC0)).toNat &&& 0x80 ≠ 0 ∧
        getRange (UInt8.ofNat (x + 0xC0)) = 2 ∧ 2 < 32 ∧
          (0xFF >>> 2) &&& (UInt8.ofNat (x + 0xC0)).toNat = x := by decide +kernel
    rw [List.cons_append, decodeUtf8_cons (key (v / 64 % 0x20) (by omega) (by omega))]
    simp only [CodePoint.decodeTail, List.cons_append, List.nil_append]
    rw [tail_cons (by omega)]
    congr 1
    omega
  · -- the second byte is bounded behind the leads `0xE0` and `0xED`
    have hlead : ∀ x < 16, (UInt8.ofNat (x + 0xE0)).toNat &&& 0x80 ≠ 0 ∧
        getRange (UInt8.ofNat (x + 0xE0)) = (if x = 0 then 10 else if x = 13 then 4 else 3) ∧
        (if x = 0 then 10 else if x = 13 then 4 else 3) < 32 ∧
        (0xFF >>> if x = 0 then 10 else if x = 13 then 4 else 3) &&&
          (UInt8.ofNat (x + 0xE0)).toNat = x := by decide +kernel
    rw [List.cons_append, decodeUtf8_cons (hlead (v / 4096 % 0x10) (by omega))]
    simp only [List.cons_append, List.nil_append]
    by_cases hfirst : v / 4096 % 0x10 = 0
    · have key : ∀ x < 64, 32 ≤ x → getRange (UInt8.ofNat (x + 0x80)) &&& 0x20 ≠ 0 := by
        decide +kernel
      simp only [hfirst, if_true, CodePoint.decodeTail]
      rw [copyTrans_cons (by omega) (key _ (by omega) (by omega)), tail_cons (by omega)]
      congr 1
      omega
    · by_cases hsurrogate : v / 4096 % 0x10 = 13
      · have key : ∀ x < 32, getRange (UInt8.ofNat (x + 0x80)) &&& 0x50 ≠ 0 := by decide +kernel
        simp only [hsurrogate, if_true, CodePoint.decodeTail,
          show ¬ ((13 : ℕ) = 0) by decide, if_false]
        rw [copyTrans_cons (by omega) (key _ (by omega)), tail_cons (by omega)]
        congr 1
        omega
      · simp only [hfirst, hsurrogate, if_false, CodePoint.decodeTail]
        rw [tail_cons (by omega), tail_cons (by omega)]
        congr 1
        omega
  · -- and behind `0xF0` and `0xF4`
    have hlead : ∀ x < 5, (UInt8.ofNat (x + 0xF0)).toNat &&& 0x80 ≠ 0 ∧
        getRange (UInt8.ofNat (x + 0xF0)) = (if x = 0 then 11 else if x = 4 then 5 else 6) ∧
        (if x = 0 then 11 else if x = 4 then 5 else 6) < 32 ∧
        (0xFF >>> if x = 0 then 11 else if x = 4 then 5 else 6) &&&
          (UInt8.ofNat (x + 0xF0)).toNat = x := by decide +kernel
    rw [List.cons_append, decodeUtf8_cons (hlead (v / 262144 % 0x08) (by omega))]
    simp only [List.cons_append, List.nil_append]
    by_cases hfirst : v / 262144 % 0x08 = 0
    · have key : ∀ x < 64, 16 ≤ x → getRange (UInt8.ofNat (x + 0x80)) &&& 0x60 ≠ 0 := by
        decide +kernel
      simp only [hfirst, if_true, CodePoint.decodeTail]
      rw [copyTrans_cons (by omega) (key _ (by omega) (by omega)), tail_cons (by omega),
        tail_cons (by omega)]
      congr 1
      omega
    · by_cases hlast : v / 262144 % 0x08 = 4
      · have key : ∀ x < 16, getRange (UInt8.ofNat (x + 0x80)) &&& 0x10 ≠ 0 := by decide +kernel
        simp only [hlast, if_true, CodePoint.decodeTail, show ¬ ((4 : ℕ) = 0) by decide, if_false]
        rw [copyTrans_cons (by omega) (key _ (by omega)), tail_cons (by omega),
          tail_cons (by omega)]
        congr 1
        omega
      · simp only [hfirst, hlast, if_false, CodePoint.decodeTail]
        rw [tail_cons (by omega), tail_cons (by omega), tail_cons (by omega)]
        congr 1
        omega

/-! ### Hexadecimal digits -/

theorem hexValue_hexDigit (v : ℕ) : hexValue (hexDigit v) = some (v % 16) := by
  have key : ∀ d < 16, hexValue (hexDigits.getD d 0) = some d := by decide +kernel
  rw [hexDigit, and_low 15 (k := 4) rfl]
  exact key _ (Nat.mod_lt _ (by decide))

/-- Four digits are read back. -/
theorem parseUnicodeHex4_append {v : ℕ} (hv : v < 0x10000) (rest : Bytes) :
    parseUnicodeHex4 (hex4 v ++ rest) = .ok (v, rest) := by
  simp only [parseUnicodeHex4, hex4, parseHexDigits, List.cons_append, List.nil_append,
    List.headD_cons, List.tail_cons, hexValue_hexDigit, Nat.shiftLeft_eq, Nat.shiftRight_eq_div_pow]
  congr 2
  omega

/-- The escape of a scalar value of the basic plane. -/
theorem writeUnicodeToString_of_le (isXml : Bool) {c : Char} (hc : c.toNat ≤ 0xFFFF)
    (rest : Bytes) :
    writeUnicodeToString isXml (String.utf8EncodeChar c ++ rest) =
      .ok ((if isXml then codes ['&', '#', 'x'] else codes ['\\', 'u']) ++ hex4 c.toNat ++
        (if isXml then codes [';'] else []), rest) := by
  have hrange := toNat_range c
  simp only [writeUnicodeToString, decodeUtf8_append, Bool.not_true, Bool.false_eq_true, if_false]
  rw [if_pos (by omega)]

/-- The halves of a scalar value behind the basic plane. -/
def leadSurrogate (v : ℕ) : ℕ := ((v - 0x010000) >>> 10) + 0xD800

def trailSurrogate (v : ℕ) : ℕ := ((v - 0x010000) &&& 0x3FF) + 0xDC00

theorem surrogate_bounds {v : ℕ} (hv : v < 0x110000) :
    (0xD800 ≤ leadSurrogate v ∧ leadSurrogate v < 0xDC00) ∧
      0xDC00 ≤ trailSurrogate v ∧ trailSurrogate v < 0xE000 := by
  simp only [leadSurrogate, trailSurrogate, Nat.shiftRight_eq_div_pow, and_low 0x3FF (k := 10) rfl]
  omega

/-- The two escapes of a scalar value behind the basic plane. -/
theorem writeUnicodeToString_of_lt (isXml : Bool) {c : Char} (hc : 0xFFFF < c.toNat)
    (rest : Bytes) :
    writeUnicodeToString isXml (String.utf8EncodeChar c ++ rest) =
      .ok ((if isXml then codes ['&', '#', 'x'] else codes ['\\', 'u']) ++
        hex4 (leadSurrogate c.toNat) ++
        (if isXml then codes [';', '&', '#', 'x'] else codes ['\\', 'u']) ++
        hex4 (trailSurrogate c.toNat) ++ (if isXml then codes [';'] else []), rest) := by
  have hrange := toNat_range c
  simp only [writeUnicodeToString, decodeUtf8_append, Bool.not_true, Bool.false_eq_true, if_false]
  rw [if_neg (by omega), if_neg (by omega)]
  rfl

end Scalars

/-! ### Texts -/

/-- The encoding of a text. -/
def utf8 (cs : List Char) : Bytes := cs.flatMap String.utf8EncodeChar

/-- What a reader makes of the escapes of a character: a pair of surrogates is not put together. -/
def readAs (c : Char) : Bytes :=
  if c.toNat ≤ 0xFFFF then String.utf8EncodeChar c
  else encodeUtf8 (leadSurrogate c.toNat) ++ encodeUtf8 (trailSurrogate c.toNat)

/-- The loop of a writer over a text, with its step at a character: what is written, and the text
that is left. -/
def writeChars (step : UInt8 → Bytes → Parsed Bytes) : ℕ → Bytes → Except Fault Bytes
  | _, [] => .ok []
  | 0, _ => .error .tooDeep
  | n + 1, c :: it => (step c it).bind fun p => (writeChars step n p.2).map (p.1 ++ ·)

section Texts

variable {c : Char}

/-- A text is written unit by unit. -/
theorem writeChars_flatMap {ι : Type*} {step : UInt8 → Bytes → Parsed Bytes}
    {plain written : ι → Bytes} {us : List ι} (hne : ∀ u ∈ us, ∃ b bs, plain u = b :: bs)
    (hstep : ∀ u ∈ us, ∀ b bs, plain u = b :: bs →
      ∀ rest, step b (bs ++ rest) = .ok (written u, rest))
    {n : ℕ} (hn : (us.flatMap plain).length ≤ n) :
    writeChars step n (us.flatMap plain) = .ok (us.flatMap written) := by
  induction us generalizing n with
  | nil => cases n <;> rfl
  | cons u us ih =>
    obtain ⟨b, bs, h⟩ := hne u List.mem_cons_self
    have hplain : (u :: us).flatMap plain = b :: (bs ++ us.flatMap plain) := by
      rw [List.flatMap_cons, h]
      rfl
    rw [hplain, List.length_cons, List.length_append] at hn
    obtain ⟨n, rfl⟩ := Nat.exists_eq_succ_of_ne_zero (show n ≠ 0 by omega)
    have ih := @ih (fun v hv => hne v (List.mem_cons_of_mem _ hv))
      (fun v hv => hstep v (List.mem_cons_of_mem _ hv)) n (by omega)
    rw [hplain, writeChars, hstep u List.mem_cons_self b bs h]
    change ((writeChars step n (us.flatMap plain)).map _) = _
    rw [ih, List.flatMap_cons]
    rfl

theorem utf8EncodeChar_of_lt (hc : c.toNat < 0x80) :
    String.utf8EncodeChar c = [UInt8.ofNat c.toNat] := by
  rw [String.utf8EncodeChar]
  exact if_pos (Nat.le_of_lt_succ hc)

theorem utf8EncodeChar_ne_nil (c : Char) : ∃ b bs, String.utf8EncodeChar c = b :: bs := by
  rw [String.utf8EncodeChar]
  split_ifs <;> exact ⟨_, _, rfl⟩

/-- The first byte behind ASCII. -/
theorem le_of_utf8EncodeChar {b : UInt8} {bs : Bytes} (hc : 0x80 ≤ c.toNat)
    (h : String.utf8EncodeChar c = b :: bs) : 0x80 ≤ b.toNat := by
  have hdecode := decodeUtf8_append c []
  rw [h] at hdecode
  by_contra hlt
  have hlow : ∀ v < 0x80, v &&& 0x80 = 0 := by decide +kernel
  have hb := hlow b.toNat (Nat.not_le.mp hlt)
  have : (decodeUtf8 (b :: bs ++ [])).codepoint = b.toNat := by
    rw [List.cons_append, decodeUtf8]
    simp only [List.headD_cons, hb, if_true]
  rw [hdecode] at this
  simp only at this
  omega

/-- The last byte behind ASCII. -/
theorem exists_encodeUtf8_eq_concat {v : ℕ} (hv : 0x80 ≤ v) :
    ∃ bs b, encodeUtf8 v = bs ++ [b] ∧ 0x80 ≤ b.toNat := by
  have hlast : 0x80 ≤ (UInt8.ofNat (0x80 ||| (v &&& 0x3F))).toNat := by
    have key : ∀ x < 64, 0x80 ≤ (UInt8.ofNat (0x80 ||| x)).toNat := by decide +kernel
    exact key _ (Nat.lt_succ_of_le Nat.and_le_right)
  rw [encodeUtf8, if_neg (by omega)]
  split_ifs
  · exact ⟨[_], _, rfl, hlast⟩
  · exact ⟨[_, _], _, rfl, hlast⟩
  · exact ⟨[_, _, _], _, rfl, hlast⟩

/-- A character of the basic plane is one without a lead of four bytes. -/
theorem forall_mem_utf8EncodeChar_lt_iff (c : Char) :
    (∀ b ∈ String.utf8EncodeChar c, b.toNat < 0xF0) ↔ c.toNat ≤ 0xFFFF := by
  have hval : c.val.toNat = c.toNat := rfl
  simp only [String.utf8EncodeChar, hval]
  generalize c.toNat = v
  split_ifs with h1 h2 h3 <;>
    simp only [List.mem_cons, List.not_mem_nil, or_false, forall_eq_or_imp, forall_eq,
      UInt8.toNat_ofNat'] <;> omega

/-- A pair of surrogates is read as six bytes where four were written. -/
theorem length_utf8_le_readAs (c : Char) :
    (String.utf8EncodeChar c).length ≤ (readAs c).length ∧
      (0xFFFF < c.toNat → (String.utf8EncodeChar c).length < (readAs c).length) := by
  rw [readAs]
  by_cases hplane : c.toNat ≤ 0xFFFF
  · simp [if_pos hplane, Nat.not_lt.mpr hplane]
  · have hrange := toNat_range c
    have hb := surrogate_bounds (show c.toNat < 0x110000 by omega)
    have hthree : ∀ {v}, 0x7FF < v → v ≤ 0xFFFF → (encodeUtf8 v).length = 3 := by
      intro v hlo hhi
      rw [encodeUtf8, if_neg (by omega), if_neg (by omega), if_pos hhi]
      rfl
    have hfour : (String.utf8EncodeChar c).length = 4 := by
      rw [← encodeUtf8_toNat, encodeUtf8, if_neg (by omega), if_neg (by omega), if_neg hplane]
      rfl
    rw [if_neg hplane, List.length_append, hthree (by omega) (by omega),
      hthree (by omega) (by omega), hfour]
    omega

/-- A text of the basic plane is one without a lead of four bytes. -/
theorem forall_mem_utf8_lt_iff (cs : List Char) :
    (∀ b ∈ utf8 cs, b.toNat < 0xF0) ↔ ∀ c ∈ cs, c.toNat ≤ 0xFFFF := by
  simp only [utf8, List.mem_flatMap, forall_exists_index, and_imp]
  constructor
  · intro h c hc
    exact (forall_mem_utf8EncodeChar_lt_iff c).mp fun b hb => h b c hc hb
  · intro h b c hc
    exact (forall_mem_utf8EncodeChar_lt_iff c).mpr (h c hc) b

/-- The texts that come back are those of the basic plane. -/
theorem flatMap_readAs_eq_iff (cs : List Char) :
    cs.flatMap readAs = utf8 cs ↔ ∀ c ∈ cs, c.toNat ≤ 0xFFFF := by
  constructor
  · intro h c hc
    by_contra hplane
    have hlen := congrArg List.length h
    rw [utf8, List.length_flatMap, List.length_flatMap] at hlen
    refine absurd hlen (Nat.ne_of_gt ?_)
    exact List.sum_lt_sum _ _ (fun d _ => (length_utf8_le_readAs d).1)
      ⟨c, hc, (length_utf8_le_readAs c).2 (Nat.not_le.mp hplane)⟩
  · intro h
    exact List.flatMap_congr fun c hc => by rw [readAs, if_pos (h c hc)]

end Texts

end Yalantinglibs.Iguana
