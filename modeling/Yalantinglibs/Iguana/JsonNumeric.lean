import Yalantinglibs.Iguana.JsonText

/-!
# Reading numbers

`from_json_impl` reads a `double` with `fast_float::from_chars`, which takes the longest prefix
that is a number, and looks at the character behind it. What number a text stands for is left to a
parameter.

## Main definitions

* `parseNumberString` — where a number ends
* `FloatReader` — what a number is
* `fromJsonFloat` — the reader

## Main results

* `parseNumberString_raw` — the number tokens of JSON are taken off whole
* `fromJsonFloat_raw` — and are read
-/

set_option autoImplicit false

namespace Yalantinglibs.Iguana

open ByteCodec

/-- The exponent, if there is one: what is left behind it. -/
def parseExponent (r : Bytes) : Bytes :=
  if r.head? = some 0x65 ∨ r.head? = some 0x45 then
    let s := r.tail
    let e := if s.head? = some 0x2D ∨ s.head? = some 0x2B then s.tail else s
    -- without digits the `e` does not belong to the number
    if e.head?.any isDigit then e.dropWhile isDigit else r
  else r

/-- The fraction, if there is one: what is left behind it. -/
def parseFraction (q : Bytes) : Bytes :=
  if q.head? = some 0x2E then q.tail.dropWhile isDigit else q

/-- `parse_number_string`, behind the sign: what is left behind the number. -/
def parseMagnitude (p : Bytes) : Option Bytes :=
  let q := p.dropWhile isDigit
  let r := parseFraction q
  -- there must be a digit; the point is none
  if p.length - q.length + (q.length - r.length - 1) = 0 then none else some (parseExponent r)

/-- `parse_number_string`: what is left behind the number. -/
def parseNumberString : Bytes → Option Bytes
  | [] => none
  | c :: p =>
    if c = 0x2D then
      if p.head?.any fun d => isDigit d || d = 0x2E then parseMagnitude p else none
    else parseMagnitude (c :: p)

/-- What the texts of numbers stand for, also those of infinities, and the `int` that a number
is. -/
structure FloatReader (δ : Type) where
  toFloat : Bytes → δ
  parseInfnan : Bytes → Option (δ × Bytes)
  toInt : δ → Option ℤ

variable {δ : Type} (reader : FloatReader δ)

/-- `fast_float::from_chars`. -/
def FloatReader.fromChars (it : Bytes) : Option (δ × Bytes) :=
  match parseNumberString it with
  | some p => some (reader.toFloat (it.take (it.length - p.length)), p)
  | none => reader.parseInfnan it

/-- `can_follow_number`; what stands behind the text counts as a zero. -/
def canFollowNumber (c : UInt8) : Bool :=
  c = 0 || (0x09 ≤ c && c ≤ 0x0D) || c = space || c = quote || c = 0x2C || c = 0x5D || c = 0x7D

/-- `from_json_impl` for a floating-point number. -/
def fromJsonFloat (it : Bytes) : Parsed δ :=
  (skipWs it).bind fun it =>
    if it = [] then raise "Failed to parse number"
    else
      match reader.fromChars it with
      | some (value, p) =>
        if canFollowNumber (p.headD 0) then .ok (value, p) else raise "Failed to parse number"
      | none => raise "Failed to parse number"

/-! ### The numbers of JSON -/

/-- No character that a number could go on with. -/
def EndsNumber (rest : Bytes) : Prop :=
  ∀ c ∈ rest.head?, isDigit c = false ∧ c ≠ 0x2E ∧ c ≠ 0x65 ∧ c ≠ 0x45

variable {ds rest : Bytes}

theorem dropWhile_digits (hds : ∀ d ∈ ds, isDigit d = true)
    (hrest : ∀ c ∈ rest.head?, isDigit c = false) : (ds ++ rest).dropWhile isDigit = rest := by
  rw [List.dropWhile_append_of_pos hds]
  cases rest with
  | nil => rfl
  | cons c rest => rw [List.dropWhile_cons_of_neg (by rw [hrest c rfl]; exact Bool.false_ne_true)]

/-- How the exponent of a number is written. -/
def JsonNumber.rawExponent (n : JsonNumber) : Bytes := n.exponent.elim [] fun e => e.1 ++ e.2

theorem parseExponent_rawExponent (n : JsonNumber) (hrest : EndsNumber rest) :
    parseExponent (n.rawExponent ++ rest) = rest := by
  cases hexp : n.exponent with
  | none =>
    rw [JsonNumber.rawExponent, hexp, Option.elim_none, List.nil_append, parseExponent]
    apply if_neg
    rintro (h | h)
    · exact (hrest _ h).2.2.1 rfl
    · exact (hrest _ h).2.2.2 rfl
  | some e =>
    obtain ⟨mark, ds⟩ := e
    obtain ⟨hne, hds⟩ := n.exponent_digits _ hexp
    have hdrop : (ds ++ rest).dropWhile isDigit = rest :=
      dropWhile_digits hds fun c hc => (hrest c hc).1
    obtain ⟨d, ds, rfl⟩ := List.exists_cons_of_ne_nil hne
    have hd : isDigit d = true := hds d List.mem_cons_self
    have hsign : ¬ (d = 0x2D ∨ d = 0x2B) := by
      rintro (rfl | rfl) <;> cases hd
    have hmark := n.exponent_mark _ hexp
    rw [JsonNumber.rawExponent, hexp, Option.elim_some, List.append_assoc]
    simp only [List.mem_cons, List.not_mem_nil, or_false] at hmark
    rcases hmark with rfl | rfl | rfl | rfl | rfl | rfl <;>
      simpa [parseExponent, hsign, hd] using hdrop

theorem endsNumber_rawExponent (n : JsonNumber) (hrest : EndsNumber rest) :
    ∀ c ∈ (n.rawExponent ++ rest).head?, isDigit c = false ∧ c ≠ 0x2E := by
  intro c hc
  cases hexp : n.exponent with
  | none =>
    rw [JsonNumber.rawExponent, hexp, Option.elim_none, List.nil_append] at hc
    exact ⟨(hrest c hc).1, (hrest c hc).2.1⟩
  | some e =>
    obtain ⟨mark, ds⟩ := e
    have hmark := n.exponent_mark _ hexp
    rw [JsonNumber.rawExponent, hexp, Option.elim_some, List.append_assoc] at hc
    simp only [List.mem_cons, List.not_mem_nil, or_false] at hmark
    rcases hmark with rfl | rfl | rfl | rfl | rfl | rfl <;> cases hc <;> decide

/-- A number token is taken off up to its last digit. -/
theorem parseMagnitude_raw (n : JsonNumber) (hrest : EndsNumber rest) :
    parseMagnitude (n.whole ++ n.rawTail ++ rest) = some rest := by
  have hexp := endsNumber_rawExponent n hrest
  have hwhole : 0 < n.whole.length := List.length_pos_iff.mpr n.whole_ne
  cases hfrac : n.fraction with
  | none =>
    have htail : n.rawTail = n.rawExponent := by
      rw [JsonNumber.rawTail, hfrac]
      rfl
    have hdrop : (n.whole ++ (n.rawExponent ++ rest)).dropWhile isDigit = n.rawExponent ++ rest :=
      dropWhile_digits n.whole_digits fun c hc => (hexp c hc).1
    have hpoint : parseFraction (n.rawExponent ++ rest) = n.rawExponent ++ rest :=
      if_neg fun h => (hexp _ h).2 rfl
    rw [htail, List.append_assoc, parseMagnitude]
    rw [hdrop, hpoint, if_neg, parseExponent_rawExponent n hrest]
    rw [List.length_append]
    omega
  | some ds =>
    obtain ⟨-, hds⟩ := n.fraction_digits ds hfrac
    have htail : n.rawTail = 0x2E :: (ds ++ n.rawExponent) := by
      rw [JsonNumber.rawTail, hfrac]
      rfl
    have hdrop : (n.whole ++ 0x2E :: (ds ++ (n.rawExponent ++ rest))).dropWhile isDigit =
        0x2E :: (ds ++ (n.rawExponent ++ rest)) := by
      apply dropWhile_digits n.whole_digits
      intro c hc
      cases hc
      rfl
    have hpoint : parseFraction (0x2E :: (ds ++ (n.rawExponent ++ rest))) =
        n.rawExponent ++ rest :=
      (if_pos rfl).trans (dropWhile_digits hds fun c hc => (hexp c hc).1)
    rw [htail, List.append_assoc, List.cons_append, List.append_assoc, parseMagnitude]
    rw [hdrop, hpoint, if_neg, parseExponent_rawExponent n hrest]
    rw [List.length_append]
    omega

theorem parseNumberString_raw (n : JsonNumber) (hrest : EndsNumber rest) :
    parseNumberString (n.raw ++ rest) = some rest := by
  obtain ⟨d, ds, hwhole⟩ := List.exists_cons_of_ne_nil n.whole_ne
  have hd : isDigit d = true := n.whole_digits d (hwhole ▸ List.mem_cons_self)
  have hmagnitude := parseMagnitude_raw n hrest
  rw [hwhole, List.cons_append, List.cons_append] at hmagnitude
  rw [JsonNumber.raw, hwhole]
  cases n.negative with
  | true =>
    show parseNumberString (0x2D :: (d :: ds ++ n.rawTail ++ rest)) = some rest
    rw [parseNumberString, if_pos rfl, if_pos]
    · exact hmagnitude
    · exact (Bool.or_eq_true _ _).mpr (.inl hd)
  | false =>
    have hminus : d ≠ 0x2D := by
      rintro rfl
      cases hd
    show parseNumberString (d :: (ds ++ n.rawTail ++ rest)) = some rest
    rw [parseNumberString, if_neg hminus]
    exact hmagnitude

theorem skipWs_literal {c : UInt8} (hc : isLiteralChar c = true) (it : Bytes) :
    skipWs (c :: it) = .ok (c :: it) := by
  apply skipWs_cons
  · simp only [isLiteralChar, isDigit, Bool.or_eq_true, Bool.and_eq_true, decide_eq_true_eq,
      UInt8.le_iff_toNat_le, ← UInt8.toNat_inj] at hc
    rcases hc with ((((hc | hc) | hc) | hc) | hc) | hc
    · exact Nat.le_trans (by decide) hc.1
    · rw [hc]; decide
    · rw [hc]; decide
    · rw [hc]; decide
    · exact Nat.le_trans (by decide) hc.1
    · exact Nat.le_trans (by decide) hc.1
  · rintro rfl
    cases hc

/-- A number token is read, whatever ends it. -/
theorem fromJsonFloat_raw (n : JsonNumber) (hrest : EndsNumber rest)
    (hfollow : canFollowNumber (rest.headD 0) = true) :
    fromJsonFloat reader (n.raw ++ rest) = .ok (reader.toFloat n.raw, rest) := by
  obtain ⟨c, cs, hraw⟩ := List.exists_cons_of_ne_nil n.raw_ne
  have hc : isLiteralChar c = true := n.isLiteralChar_raw c (hraw ▸ List.mem_cons_self)
  have hws : skipWs (n.raw ++ rest) = .ok (n.raw ++ rest) := by
    rw [hraw, List.cons_append]
    exact skipWs_literal hc _
  have hlength : (n.raw ++ rest).take ((n.raw ++ rest).length - rest.length) = n.raw := by
    rw [List.length_append, Nat.add_sub_cancel]
    exact List.take_left
  rw [fromJsonFloat, hws]
  show (if n.raw ++ rest = [] then _ else _) = _
  rw [if_neg (List.append_ne_nil_of_left_ne_nil n.raw_ne rest), FloatReader.fromChars,
    parseNumberString_raw n hrest]
  dsimp only
  rw [hlength, if_pos hfollow]

end Yalantinglibs.Iguana
