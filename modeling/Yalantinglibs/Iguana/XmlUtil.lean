import Yalantinglibs.Data.EscapedText
import Yalantinglibs.Iguana.Scan
import Mathlib.Data.List.DropRight

/-!
# Scanning XML

`iguana/xml_util.hpp`, on the bytes from the iterator to the end of the text, and
`parse_escape_xml` with the loop of `xml_parse_value` around it.

## Main definitions

* `skipTill`, `skipPass`, `matchCloseTag` — the scanners
* `parseEscapeXml` — an entity or a numeric reference
* `xmlParseString` — `xml_parse_value` for a string

## Main results

* `skipPass_append` — a scan takes off what stands before a character, without its last spaces
* `decodes_of_escape` — an escape is taken off by the loop
-/

set_option autoImplicit false

namespace Yalantinglibs.Iguana

open ByteCodec ByteSearch EscapedText

/-! ### Characters -/

/-- The code of `'&'`. -/
def ampersand : UInt8 := 0x26

/-- The code of `'<'`. -/
def smaller : UInt8 := 0x3C

/-- The code of `'>'`. -/
def greater : UInt8 := 0x3E

/-- The code of `'='`. -/
def equal : UInt8 := 0x3D

/-- The code of the apostrophe. -/
def apos : UInt8 := 0x27

/-- The code of `';'`. -/
def semicolon : UInt8 := 0x3B

/-! ### The scanners -/

/-- `skip_sapces_and_newline`. -/
def skipSapcesAndNewline (it : Bytes) : Bytes := it.dropWhile fun c => c.toNat < 33

/-- The text of an exception about a tag. -/
def unclosedTag (key : Bytes) : String :=
  "unclosed tag: " ++ String.ofList (key.map fun c => Char.ofNat c.toNat)

/-- `match_close_tag`, behind the `'<'`. -/
def matchCloseTag (key : Bytes) : Bytes → Except Fault Bytes
  | [] => raise (unclosedTag key)
  | c :: it =>
    if c ≠ slash then raise (unclosedTag key)
    else if it.length ≤ key.length ∨ it.take key.length ≠ key then raise (unclosedTag key)
    else matchChars [greater] (it.drop key.length)

/-- `advance_until_character<'&'>`: `none` at the end of the text. -/
def advanceUntilAmpersand (it : Bytes) : Option Bytes :=
  scan (hasByteOf ampersand) (fun c => c = ampersand) it

/-- `skip_till<c>`. -/
def skipTill (c : UInt8) (it : Bytes) : Except Fault Bytes :=
  match scan (hasByteOf c) (fun d => d = c) it with
  | some it => .ok it
  | none => raise ("Expected: " ++ String.singleton (Char.ofNat c.toNat))

/-- `skip_pass<c>`: the text up to the character without the spaces at its end, and the text behind
the character. If there is nothing but spaces, the source steps back before the start of the text,
to the markup there; the string it then makes of it is empty, too. -/
def skipPass (c : UInt8) (it : Bytes) : Parsed Bytes :=
  (skipTill c it).map fun stop =>
    ((it.take (it.length - stop.length)).rdropWhile fun d => d = space, stop.tail)

/-- `is_match<C...>`. -/
def isMatch (expected it : Bytes) : Bool := it.take expected.length = expected

/-! ### Escapes -/

/-- The digits of a numeric reference, from the first one on. The base is 10 or 16, and the digits
are hexadecimal in both. -/
def parseReference (base : ℕ) : ℕ → Bytes → ℕ × Bytes
  | codepoint, [] => (codepoint, [])
  | codepoint, c :: it =>
    match hexValue c with
    | some digit => parseReference base ((codepoint * base + digit) % 2 ^ 64) it
    | none => (codepoint, c :: it)

/-- `parse_escape_xml`, at the `'&'`. The source also reads the one or two characters behind it if
the text ends there; these are the ones at which `skip_pass` ended the text, and no case of the
`switch`. An unknown escape that starts like a known one is not passed over. -/
def parseEscapeXml (value it : Bytes) : Parsed Bytes :=
  match it.tail with
  | [] => .ok (value ++ [ampersand], it.tail)
  | c :: rest =>
    if c = 0x61 then
      if isMatch (codes ['m', 'p', ';']) rest then .ok (value ++ [ampersand], it.drop 5)
      else if isMatch (codes ['p', 'o', 's', ';']) rest then .ok (value ++ [apos], it.drop 6)
      else .ok (value, it)
    else if c = 0x71 then
      if isMatch (codes ['u', 'o', 't', ';']) rest then .ok (value ++ [quote], it.drop 6)
      else .ok (value, it)
    else if c = 0x67 then
      if isMatch (codes ['t', ';']) rest then .ok (value ++ [greater], it.drop 4)
      else .ok (value, it)
    else if c = 0x6C then
      if isMatch (codes ['t', ';']) rest then .ok (value ++ [smaller], it.drop 4)
      else .ok (value, it)
    else if c = 0x23 then
      let reference :=
        if rest.head? = some 0x78 then parseReference 16 0 rest.tail else parseReference 10 0 rest
      (matchChars [semicolon] reference.2).map fun it =>
        (value ++ encodeUtf8 (reference.1 % 2 ^ 32), it)
    else
      -- a loose `'&'`
      .ok (value ++ [ampersand], it.tail)

/-- The loop of `xml_parse_value` for a string. -/
def xmlParseChars : ℕ → Bytes → Bytes → Except Fault Bytes
  | n, value, it =>
    match advanceUntilAmpersand it with
    | none => .ok (value ++ it)
    | some stop =>
      match n with
      | 0 => .error .tooDeep
      | n + 1 =>
        (parseEscapeXml (value ++ it.take (it.length - stop.length)) stop).bind fun p =>
          xmlParseChars n p.1 p.2

/-- `xml_parse_value` for a string. -/
def xmlParseString (it : Bytes) : Except Fault Bytes := xmlParseChars it.length [] it

section Scanners

variable {c : UInt8} {bs : Bytes}

theorem skipSapcesAndNewline_cons {it : Bytes} (hc : 33 ≤ c.toNat) :
    skipSapcesAndNewline (c :: it) = c :: it := by
  rw [skipSapcesAndNewline, List.dropWhile_cons_of_neg]
  simpa using hc

theorem skipTill_append (h : c ∉ bs) (it : Bytes) : skipTill c (bs ++ c :: it) = .ok (c :: it) := by
  have hbs : ∀ d ∈ bs, decide (d = c) = false := by
    intro d hd
    rw [decide_eq_false_iff_not]
    rintro rfl
    exact h hd
  rw [skipTill, scan_eq fun chunk hlen => marks_hasByteOf c hlen,
    scanTail_append hbs (decide_eq_true rfl)]

/-- A scan takes off what stands before a character, without its last spaces. -/
theorem skipPass_append (h : c ∉ bs) (it : Bytes) :
    skipPass c (bs ++ c :: it) = .ok (bs.rdropWhile fun d => d = space, it) := by
  rw [skipPass, skipTill_append h]
  simp [Except.map]

theorem matchCloseTag_append (name it : Bytes) :
    matchCloseTag name (slash :: (name ++ greater :: it)) = .ok it := by
  rw [matchCloseTag, if_neg (not_not.mpr rfl), if_neg (by simp), List.drop_left, matchChars_cons]

theorem advanceUntilAmpersand_append (h : ∀ b ∈ bs, b ≠ ampersand) (it : Bytes) :
    advanceUntilAmpersand (bs ++ ampersand :: it) = some (ampersand :: it) := by
  rw [advanceUntilAmpersand, scan_eq fun chunk hlen => marks_hasByteOf ampersand hlen,
    scanTail_append (fun b hb => decide_eq_false (h b hb)) (decide_eq_true rfl)]

theorem advanceUntilAmpersand_eq_none (h : ∀ b ∈ bs, b ≠ ampersand) :
    advanceUntilAmpersand bs = none := by
  rw [advanceUntilAmpersand, scan_eq fun chunk hlen => marks_hasByteOf ampersand hlen,
    scanTail_eq_none fun b hb => decide_eq_false (h b hb)]

end Scanners

/-! ### What the loop takes off -/

section Escapes

/-- A reference with four digits. -/
theorem parseReference_hex4 {v : ℕ} (hv : v < 0x10000) (rest : Bytes) :
    parseReference 16 0 (hex4 v ++ semicolon :: rest) = (v, semicolon :: rest) := by
  have hsemicolon : hexValue semicolon = none := by decide
  simp only [hex4, List.cons_append, List.nil_append, parseReference, hexValue_hexDigit,
    hsemicolon, Nat.shiftRight_eq_div_pow]
  congr 1
  omega

theorem parseEscapeXml_reference {v : ℕ} (hv : v < 0x10000) (value rest : Bytes) :
    parseEscapeXml value (codes ['&', '#', 'x'] ++ hex4 v ++ codes [';'] ++ rest) =
      .ok (value ++ encodeUtf8 v, rest) := by
  have href : parseEscapeXml value (codes ['&', '#', 'x'] ++ hex4 v ++ codes [';'] ++ rest) =
      (matchChars [semicolon] (parseReference 16 0 (hex4 v ++ semicolon :: rest)).2).map
        fun it => (value ++
          encodeUtf8 ((parseReference 16 0 (hex4 v ++ semicolon :: rest)).1 % 2 ^ 32), it) := rfl
  rw [href, parseReference_hex4 hv, matchChars_cons, Nat.mod_eq_of_lt (by omega)]
  rfl

/-- The loop takes an escape off. -/
theorem decodes_of_escape {w r : Bytes}
    (h : ∀ value rest, parseEscapeXml value (ampersand :: w ++ rest) = .ok (value ++ r, rest)) :
    Decodes xmlParseChars (· ≠ ampersand) [] ⟨ampersand :: w, r⟩ := by
  refine .inr fun n m value p rest hp hm => ?_
  rw [List.length_cons] at hm
  obtain ⟨m, rfl⟩ := Nat.exists_eq_add_of_le' (show 1 ≤ m by omega)
  refine ⟨m, by omega, ?_⟩
  rw [xmlParseChars]
  simp only [List.cons_append, advanceUntilAmpersand_append hp]
  have htake : (p ++ ampersand :: (w ++ (rest ++ []))).take
      ((p ++ ampersand :: (w ++ (rest ++ []))).length -
        (ampersand :: (w ++ (rest ++ []))).length) = p := by
    rw [List.length_append, Nat.add_sub_cancel, List.take_left]
  rw [htake, ← List.cons_append, h]
  rfl

/-- The pieces of a text are read one after the other. -/
theorem xmlParseString_flatMap {us : List Piece}
    (h : ∀ u ∈ us, Decodes xmlParseChars (· ≠ ampersand) [] u) :
    xmlParseString (us.flatMap Piece.written) = .ok (us.flatMap Piece.read) := by
  obtain ⟨m, value, p, -, hp, hrun, hread⟩ := exists_run_pieces h (n := 0)
    (m := (us.flatMap Piece.written).length) [] (p := []) (by simp) (by simp)
  simp only [List.append_nil, List.nil_append] at hrun hread
  rw [xmlParseString, hrun, xmlParseChars, advanceUntilAmpersand_eq_none hp, ← hread]

end Escapes

end Yalantinglibs.Iguana
