import Yalantinglibs.Iguana.XmlUtil

/-!
# XML text

How a string is written into an element or an attribute, `render_string_with_escape_xml`,
`render_xml_value` and `render_xml_attr` of `iguana/xml_writer.hpp`, and how it is read from
there, `xml_parse_item` and `parse_attr` of `iguana/xml_reader.hpp`.

The reader takes a value off with `skip_pass`, which drops the spaces at its end. It does so for an
attribute, too, where the spaces stand before the closing quote and belong to the value.

## Main definitions

* `XmlConfig` — the macros of the writer
* `renderStringWithEscapeXml`, `renderElement`, `renderAttributes` — the writer
* `xmlParseItem`, `parseAttr` — the reader
* `XmlPiece` — a byte that stands for itself, or an escape

## Main results

* `exists_pieces` — a text is written in pieces
* `exists_rdropWhile_written` — what is left of the pieces when the last spaces are dropped
-/

set_option autoImplicit false

namespace Yalantinglibs.Iguana

open ByteCodec EscapedText

/-! ### The writer -/

/-- The macros `XML_ESCAPE_UNICODE` and `XML_ATTR_USE_APOS`. -/
structure XmlConfig where
  escapeUnicode : Bool
  attrUseApos : Bool
  deriving DecidableEq, Repr

/-- `XML_ATTR_DELIMITER`. -/
def XmlConfig.attrDelimiter (cfg : XmlConfig) : UInt8 := if cfg.attrUseApos then apos else quote

/-- What is written for a character that is not escaped as a code point. -/
def escapeXml (cfg : XmlConfig) (escapeQuoteApos : Bool) (c : UInt8) : Bytes :=
  if escapeQuoteApos = true ∧ c = cfg.attrDelimiter then
    if cfg.attrUseApos then codes ['&', 'a', 'p', 'o', 's', ';']
    else codes ['&', 'q', 'u', 'o', 't', ';']
  else if c = ampersand then codes ['&', 'a', 'm', 'p', ';']
  else if c = greater then codes ['&', 'g', 't', ';']
  else if c = smaller then codes ['&', 'l', 't', ';']
  else [c]

/-- One step of the loop of `render_string_with_escape_xml`. -/
def renderCharWithEscapeXml (cfg : XmlConfig) (escapeQuoteApos : Bool) (c : UInt8) (it : Bytes) :
    Parsed Bytes :=
  if cfg.escapeUnicode = true ∧ 0x80 ≤ c.toNat then writeUnicodeToString true (c :: it)
  else .ok (escapeXml cfg escapeQuoteApos c, it)

/-- `render_string_with_escape_xml`. -/
def renderStringWithEscapeXml (cfg : XmlConfig) (escapeQuoteApos : Bool) (s : Bytes) :
    Except Fault Bytes :=
  writeChars (renderCharWithEscapeXml cfg escapeQuoteApos) s.length s

/-- The tabs in front of a tag. -/
def indent (pretty : Bool) (spaces : ℕ) : Bytes := if pretty then List.replicate spaces 0x09 else []

/-- `render_head`. -/
def renderHead (pretty : Bool) (spaces : ℕ) (str : Bytes) : Bytes :=
  indent pretty spaces ++ smaller :: (str ++ [greater])

/-- The line feed behind a closing tag. -/
def endOfTag (pretty : Bool) : Bytes := if pretty then [lineFeed] else []

/-- `render_tail`. -/
def renderTail (pretty : Bool) (spaces : ℕ) (str : Bytes) : Bytes :=
  indent pretty spaces ++ smaller :: slash :: (str ++ greater :: endOfTag pretty)

/-- `render_xml_value` for a string. -/
def renderXmlValue (cfg : XmlConfig) (pretty : Bool) (value name : Bytes) : Except Fault Bytes :=
  (renderStringWithEscapeXml cfg false value).map (· ++ renderTail pretty 0 name)

/-- A member of a structure that is a string: its head, and its value. -/
def renderElement (cfg : XmlConfig) (pretty : Bool) (spaces : ℕ) (value name : Bytes) :
    Except Fault Bytes :=
  (renderXmlValue cfg pretty value name).map (renderHead pretty spaces name ++ ·)

/-- One attribute. -/
def renderAttribute (cfg : XmlConfig) (kv : Bytes × Bytes) : Except Fault Bytes :=
  (renderStringWithEscapeXml cfg false kv.1).bind fun k =>
    (renderStringWithEscapeXml cfg true kv.2).map fun v =>
      space :: (k ++ equal :: cfg.attrDelimiter :: (v ++ [cfg.attrDelimiter]))

/-- The loop of `render_xml_attr` over the attributes, in the order of the container. -/
def renderAttributes (cfg : XmlConfig) : List (Bytes × Bytes) → Except Fault Bytes
  | [] => .ok []
  | kv :: value =>
    (renderAttribute cfg kv).bind fun w => (renderAttributes cfg value).map (w ++ ·)

/-- `render_xml_attr`. -/
def renderXmlAttr (cfg : XmlConfig) (pretty : Bool) (spaces : ℕ) (value : List (Bytes × Bytes))
    (name : Bytes) : Except Fault Bytes :=
  (renderAttributes cfg value).map fun w =>
    indent pretty spaces ++ smaller :: (name ++ (w ++ [greater]))

/-! ### The reader -/

/-- `xml_parse_item` for a string, from the opening tag on. -/
def xmlParseItem (name it : Bytes) : Parsed Bytes :=
  (skipTill greater it).bind fun it =>
    (skipPass smaller (skipSapcesAndNewline it.tail)).bind fun p =>
      (xmlParseString p.1).bind fun value => (matchCloseTag name p.2).map fun it => (value, it)

/-- `emplace` on a map: a key that is there keeps its value. -/
def emplace (value : List (Bytes × Bytes)) (k v : Bytes) : List (Bytes × Bytes) :=
  if k ∈ value.map Prod.fst then value else value ++ [(k, v)]

/-- The value of an attribute, behind the `'='`. -/
def parseAttrValue (it : Bytes) : Parsed Bytes :=
  (match skipSapcesAndNewline it with
    | [] => raise "expected quote or apos"
    | c :: it =>
      if c = quote then skipPass quote it
      else if c = apos then skipPass apos it
      else raise "expected quote or apos").bind fun p =>
    (xmlParseString p.1).map fun v => (v, p.2)

/-- The loop of `parse_attr`. -/
def parseAttrLoop : ℕ → List (Bytes × Bytes) → Bytes → Parsed (List (Bytes × Bytes))
  | _, value, [] => .ok (value, [])
  | 0, _, _ => .error .tooDeep
  | n + 1, value, it =>
    match skipSapcesAndNewline it with
    | [] => raise "Expected: ="
    | c :: it =>
      if c = greater ∨ c = slash then .ok (value, c :: it)
      else
        (skipPass equal (c :: it)).bind fun key =>
          (xmlParseString key.1).bind fun k =>
            (parseAttrValue key.2).bind fun v => parseAttrLoop n (emplace value k v.1) v.2

/-- `parse_attr`, behind the name of a tag. -/
def parseAttr (value : List (Bytes × Bytes)) (it : Bytes) : Parsed (List (Bytes × Bytes)) :=
  parseAttrLoop it.length value it

/-! ### Pieces -/

/-- The characters of an escape behind the `'&'`. -/
def isEscapeByte (c : UInt8) : Bool :=
  c = 0x23 || (0x30 ≤ c.toNat && c.toNat ≤ 0x3B) || 0x41 ≤ c.toNat

/-- A byte that stands for itself, or an escape. -/
inductive XmlPiece (plain : UInt8 → Prop) : Piece → Prop
  | plain {b : UInt8} (hb : plain b) (hne : b ≠ ampersand) : XmlPiece plain ⟨[b], [b]⟩
  | escape {w r : Bytes} (hw : ∀ c ∈ w, isEscapeByte c = true)
      (hr : ∃ r' c, r = r' ++ [c] ∧ c ≠ space)
      (hread : ∀ value rest, parseEscapeXml value (ampersand :: w ++ rest) =
        .ok (value ++ r, rest)) :
      XmlPiece plain ⟨ampersand :: w, r⟩

section Pieces

variable {plain plain' : UInt8 → Prop} {u : Piece} {us : List Piece}

theorem XmlPiece.mono (h : ∀ b, plain b → plain' b) (hu : XmlPiece plain u) :
    XmlPiece plain' u := by
  cases hu with
  | plain hb hne => exact .plain (h _ hb) hne
  | escape hw hr hread => exact .escape hw hr hread

theorem XmlPiece.decodes (hu : XmlPiece plain u) :
    Decodes xmlParseChars (· ≠ ampersand) [] u := by
  cases hu with
  | plain _ hne => exact .inl ⟨_, rfl, hne⟩
  | escape _ _ hread => exact decodes_of_escape hread

/-- What does not stand for itself does not stand in the text. -/
theorem not_mem_written {c : UInt8} (h : ∀ u ∈ us, XmlPiece plain u) (hplain : ¬ plain c)
    (hc : c ≠ ampersand) (hescape : isEscapeByte c = false) : c ∉ us.flatMap Piece.written := by
  rw [List.mem_flatMap]
  rintro ⟨u, hu, hmem⟩
  cases h u hu with
  | plain hb _ =>
    rw [List.mem_singleton] at hmem
    exact hplain (hmem ▸ hb)
  | escape hw _ _ =>
    rcases List.mem_cons.mp hmem with rfl | hmem
    · exact hc rfl
    · rw [hw c hmem] at hescape
      exact Bool.noConfusion hescape

/-- What is left of the pieces when the last spaces are dropped. -/
theorem exists_rdropWhile_written (h : ∀ u ∈ us, XmlPiece plain u) :
    ∃ us' : List Piece, (∀ u ∈ us', XmlPiece plain u) ∧
      ((us.flatMap Piece.written).rdropWhile fun c => c = space) = us'.flatMap Piece.written ∧
      (us'.flatMap Piece.read).getLast? ≠ some space := by
  induction us using List.reverseRecOn with
  | nil => exact ⟨[], by simp, rfl, by simp⟩
  | append_singleton us u ih =>
    have hflat : ∀ f : Piece → Bytes, (us ++ [u]).flatMap f = us.flatMap f ++ f u := by simp
    rw [hflat]
    cases h u (by simp) with
    | @plain b hb hne =>
      by_cases hspace : b = space
      · -- a space more that goes
        obtain ⟨us', h', hdrop, hlast⟩ := ih fun v hv => h v (by simp [hv])
        refine ⟨us', h', ?_, hlast⟩
        rw [List.rdropWhile_concat_pos _ _ _ (by simpa using hspace), hdrop]
      · refine ⟨_, h, ?_, ?_⟩
        · rw [List.rdropWhile_concat_neg _ _ _ (by simpa using hspace), hflat]
        · rw [hflat, List.getLast?_concat]
          simpa using hspace
    | @escape w r hw hr hread =>
      obtain ⟨r', c, rfl, hc⟩ := hr
      refine ⟨_, h, ?_, ?_⟩
      · rw [hflat, List.rdropWhile_eq_self_iff]
        intro hne
        rw [List.getLast_append_of_ne_nil _ (List.cons_ne_nil _ _)]
        -- neither the ampersand nor the last character of an escape
        rcases List.mem_cons.mp (List.getLast_mem (List.cons_ne_nil ampersand w)) with hmem | hmem
        · rw [hmem]
          decide
        · have := hw _ hmem
          intro heq
          rw [decide_eq_true_eq.mp heq] at this
          exact absurd this (by decide)
      · rw [hflat, ← List.append_assoc, List.getLast?_concat]
        simpa using hc

/-- Nothing is dropped where no space ends the text. -/
theorem rdropWhile_eq_self {s : Bytes} (h : s.getLast? ≠ some space) :
    (s.rdropWhile fun c => c = space) = s := by
  rw [List.rdropWhile_eq_self_iff]
  intro hne heq
  rw [decide_eq_true_eq] at heq
  exact h (by rw [List.getLast?_eq_getLast_of_ne_nil hne, heq])

end Pieces

end Yalantinglibs.Iguana
