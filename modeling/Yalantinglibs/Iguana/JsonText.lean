import Yalantinglibs.Data.SpacedTokens
import Yalantinglibs.Iguana.JsonView

/-!
# JSON texts

The texts that a reader of JSON is given: a document is written as its tokens, with spaces, tabs
and ends of lines anywhere between them.

## Main definitions

* `JsonString`, `JsonNumber`, `JsonLiteral` — strings, numbers and the other words
* `JsonToken`, `json` — tokens, and how they are written
* `JsonDoc`, `JsonDoc.tokens` — documents, and the tokens of one
-/

set_option autoImplicit false

namespace Yalantinglibs.Iguana

open ByteCodec

/-- A character that may stand in a string by itself is no control character. -/
def JsonChar.IsStrict : JsonChar → Prop
  | .plain b _ => space ≤ b
  | _ => True

instance : DecidablePred JsonChar.IsStrict
  | .plain b _ => inferInstanceAs (Decidable (space ≤ b))
  | .escaped _ _ => isTrue trivial
  | .unicode _ _ _ _ _ => isTrue trivial

/-- A string token. -/
structure JsonString where
  chars : List JsonChar
  strict : ∀ c ∈ chars, c.IsStrict

/-- How a string is written. -/
def JsonString.raw (s : JsonString) : Bytes := quote :: (rawOf s.chars ++ [quote])

/-- A number token: a sign, a whole part without leading zeros, and what may follow it. -/
structure JsonNumber where
  negative : Bool
  whole : Bytes
  fraction : Option Bytes
  exponent : Option (Bytes × Bytes)
  whole_digits : ∀ b ∈ whole, isDigit b = true
  whole_ne : whole ≠ []
  whole_head : whole.head? = some 0x30 → whole.length = 1
  fraction_digits : ∀ ds ∈ fraction, ds ≠ [] ∧ ∀ b ∈ ds, isDigit b = true
  exponent_mark : ∀ e ∈ exponent, e.1 ∈ [[0x65], [0x45], [0x65, 0x2B], [0x45, 0x2B],
    [0x65, 0x2D], [0x45, 0x2D]]
  exponent_digits : ∀ e ∈ exponent, e.2 ≠ [] ∧ ∀ b ∈ e.2, isDigit b = true

/-- How the parts behind the whole part are written. -/
def JsonNumber.rawTail (n : JsonNumber) : Bytes :=
  (n.fraction.elim [] fun ds => 0x2E :: ds) ++ n.exponent.elim [] fun e => e.1 ++ e.2

/-- How a number is written. -/
def JsonNumber.raw (n : JsonNumber) : Bytes :=
  (if n.negative then [0x2D] else []) ++ (n.whole ++ n.rawTail)

/-- A token that is neither a string nor punctuation. -/
inductive JsonLiteral where
  | null
  | bool (b : Bool)
  | number (n : JsonNumber)

/-- How a literal is written. -/
def JsonLiteral.raw : JsonLiteral → Bytes
  | .null => codes ['n', 'u', 'l', 'l']
  | .bool true => codes ['t', 'r', 'u', 'e']
  | .bool false => codes ['f', 'a', 'l', 's', 'e']
  | .number n => n.raw

/-- The characters of literals. -/
def isLiteralChar (b : UInt8) : Bool :=
  isDigit b || b = 0x2B || b = 0x2D || b = 0x2E || (0x41 ≤ b && b ≤ 0x5A) || (0x61 ≤ b && b ≤ 0x7A)

/-- Punctuation. -/
inductive JsonPunct where
  | openBracket | closeBracket | openBrace | closeBrace | colon | comma
  deriving DecidableEq

/-- The code of a punctuation character. -/
def JsonPunct.code : JsonPunct → UInt8
  | .openBracket => 0x5B
  | .closeBracket => 0x5D
  | .openBrace => 0x7B
  | .closeBrace => 0x7D
  | .colon => 0x3A
  | .comma => 0x2C

inductive JsonToken where
  | punct (p : JsonPunct)
  | string (s : JsonString)
  | literal (l : JsonLiteral)

/-- How a token is written. -/
def JsonToken.raw : JsonToken → Bytes
  | .punct p => [p.code]
  | .string s => s.raw
  | .literal l => l.raw

/-- Spaces, tabs, line feeds and carriage returns. -/
def isJsonBlank (b : UInt8) : Bool := b = 0x20 || b = 0x09 || b = 0x0A || b = 0x0D

theorem isLiteralChar_of_isDigit {b : UInt8} (h : isDigit b = true) : isLiteralChar b = true := by
  simp [isLiteralChar, h]

/-- A number is written with digits, signs, points and an `e`. -/
theorem JsonNumber.isLiteralChar_raw (n : JsonNumber) : ∀ b ∈ n.raw, isLiteralChar b = true := by
  intro b hb
  simp only [raw, rawTail, List.mem_append] at hb
  rcases hb with hb | hb | hb | hb
  · split at hb
    · rw [List.mem_singleton.mp hb]
      rfl
    · cases hb
  · exact isLiteralChar_of_isDigit (n.whole_digits b hb)
  · cases hds : n.fraction with
    | none =>
      rw [hds] at hb
      cases hb
    | some ds =>
      rw [hds, Option.elim_some] at hb
      rcases List.mem_cons.mp hb with rfl | hb
      · rfl
      · exact isLiteralChar_of_isDigit ((n.fraction_digits ds hds).2 b hb)
  · cases he : n.exponent with
    | none =>
      rw [he] at hb
      cases hb
    | some e =>
      rw [he, Option.elim_some] at hb
      rcases List.mem_append.mp hb with hb | hb
      · have hmarks : ∀ m ∈ [[0x65], [0x45], [0x65, 0x2B], [0x45, 0x2B], [0x65, 0x2D],
            [0x45, 0x2D]], ∀ b ∈ m, isLiteralChar b = true := by decide
        exact hmarks _ (n.exponent_mark e he) b hb
      · exact isLiteralChar_of_isDigit ((n.exponent_digits e he).2 b hb)

theorem JsonLiteral.isLiteralChar_raw (l : JsonLiteral) : ∀ b ∈ l.raw, isLiteralChar b = true := by
  cases l with
  | null => decide
  | bool b => cases b <;> decide
  | number n => exact n.isLiteralChar_raw

theorem JsonNumber.raw_ne (n : JsonNumber) : n.raw ≠ [] := by
  rw [raw]
  simp [n.whole_ne]

theorem JsonLiteral.raw_ne (l : JsonLiteral) : l.raw ≠ [] := by
  cases l with
  | null => decide
  | bool b => cases b <;> decide
  | number n => exact n.raw_ne

theorem not_isJsonBlank_of_isLiteralChar {b : UInt8} (h : isLiteralChar b = true) :
    isJsonBlank b = false := by
  rw [Bool.eq_false_iff]
  intro hb
  simp only [isJsonBlank, Bool.or_eq_true, decide_eq_true_eq] at hb
  rcases hb with ((rfl | rfl) | rfl) | rfl <;> cases h

/-- No token begins with a blank. -/
theorem JsonToken.exists_head (t : JsonToken) :
    ∃ c cs, t.raw = c :: cs ∧ isJsonBlank c = false := by
  cases t with
  | punct p => exact ⟨p.code, [], rfl, by cases p <;> rfl⟩
  | string s => exact ⟨quote, _, rfl, rfl⟩
  | literal l =>
    obtain ⟨c, cs, hraw⟩ := List.exists_cons_of_ne_nil l.raw_ne
    refine ⟨c, cs, hraw, not_isJsonBlank_of_isLiteralChar (l.isLiteralChar_raw c ?_)⟩
    rw [hraw]
    exact List.mem_cons_self

/-- The tokens of JSON. -/
def json : Lexis JsonToken := ⟨isJsonBlank, JsonToken.raw, JsonToken.exists_head⟩

/-! ### Documents -/

/-- A document. -/
inductive JsonDoc where
  | literal (l : JsonLiteral)
  | string (s : JsonString)
  | array (items : List JsonDoc)
  | object (members : List (JsonString × JsonDoc))

mutual

/-- The tokens of a document. -/
def JsonDoc.tokens : JsonDoc → List JsonToken
  | .literal l => [.literal l]
  | .string s => [.string s]
  | .array items => .punct .openBracket :: (itemTokens items ++ [.punct .closeBracket])
  | .object members => .punct .openBrace :: (memberTokens members ++ [.punct .closeBrace])

/-- The tokens of the items of an array, with commas between them. -/
def itemTokens : List JsonDoc → List JsonToken
  | [] => []
  | [d] => d.tokens
  | d :: ds => d.tokens ++ .punct .comma :: itemTokens ds

/-- The tokens of the members of an object, with commas between them. -/
def memberTokens : List (JsonString × JsonDoc) → List JsonToken
  | [] => []
  | [(k, d)] => .string k :: .punct .colon :: d.tokens
  | (k, d) :: ms => .string k :: .punct .colon :: (d.tokens ++ .punct .comma :: memberTokens ms)

end

mutual

/-- How deep the containers of a document stand in one another. -/
def JsonDoc.nesting : JsonDoc → ℕ
  | .literal _ => 0
  | .string _ => 0
  | .array items => itemNesting items + 1
  | .object members => memberNesting members + 1

def itemNesting : List JsonDoc → ℕ
  | [] => 0
  | d :: ds => max d.nesting (itemNesting ds)

def memberNesting : List (JsonString × JsonDoc) → ℕ
  | [] => 0
  | (_, d) :: ms => max d.nesting (memberNesting ms)

end

theorem itemTokens_cons_cons (d d' : JsonDoc) (ds : List JsonDoc) :
    itemTokens (d :: d' :: ds) = d.tokens ++ .punct .comma :: itemTokens (d' :: ds) := by
  rw [itemTokens]
  exact List.cons_ne_nil d' ds

theorem memberTokens_cons_cons (k : JsonString) (d : JsonDoc) (m : JsonString × JsonDoc)
    (ms : List (JsonString × JsonDoc)) :
    memberTokens ((k, d) :: m :: ms) =
      .string k :: .punct .colon :: (d.tokens ++ .punct .comma :: memberTokens (m :: ms)) := by
  rw [memberTokens]
  exact List.cons_ne_nil m ms

/-- The text is one of the document. -/
def JsonDoc.IsText (d : JsonDoc) (bs : Bytes) : Prop := json.Spells d.tokens bs

end Yalantinglibs.Iguana
