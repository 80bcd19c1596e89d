import Yalantinglibs.Iguana.XmlText

/-!
# Round trips of XML text

A text is written in pieces, byte by byte, or character by character where code points are escaped,
and the reader takes the pieces off again. What comes back differs from the text in two cases: a
character behind the basic plane is written as two references, which are never joined, and the
spaces at the end of an attribute are dropped.

## Main definitions

* `RenderedAs` — the pieces of a text
* `ValueRoundTrips`, `ElementRoundTrips`, `AttributesRoundTrip` — what is written is read back

## Main results

* `exists_renderedAs` — every text is written in pieces
* `xmlTextRoundTrips_iff` — when it is read back
-/

set_option autoImplicit false

namespace Yalantinglibs.Iguana

open ByteCodec EscapedText

/-! ### The pieces of a text -/

/-- The bytes that are not escaped. -/
def MayStand (cfg : XmlConfig) (escapeQuoteApos : Bool) (b : UInt8) : Prop :=
  b ≠ smaller ∧ b ≠ greater ∧ (escapeQuoteApos = true → b ≠ cfg.attrDelimiter)

/-- The pieces a text is written in. -/
structure RenderedAs (cfg : XmlConfig) (escapeQuoteApos : Bool) (s : Bytes) (us : List Piece) :
    Prop where
  piece : ∀ u ∈ us, XmlPiece (fun b => b ∈ s ∧ MayStand cfg escapeQuoteApos b) u
  empty : us.flatMap Piece.written = [] ↔ s = []
  head : (us.flatMap Piece.written).head? = s.head? ∨
    (us.flatMap Piece.written).head? = some ampersand
  last : (us.flatMap Piece.written).getLast? = some space ↔ s.getLast? = some space

/-- The texts that a configuration takes: where code points are escaped, they are valid UTF-8. -/
def XmlConfig.Accepts (cfg : XmlConfig) (s : Bytes) : Prop :=
  cfg.escapeUnicode = true → ∃ cs, s = utf8 cs

/-- Where code points are escaped, there is none behind the basic plane. -/
def XmlConfig.InPlane (cfg : XmlConfig) (s : Bytes) : Prop :=
  cfg.escapeUnicode = true → ∀ b ∈ s, b.toNat < 0xF0

section Pieces

variable {cfg : XmlConfig} {esc : Bool} {s t : Bytes} {us vs : List Piece}

theorem RenderedAs.nil : RenderedAs cfg esc [] [] where
  piece := by simp
  empty := Iff.rfl
  head := .inl rfl
  last := Iff.rfl

theorem RenderedAs.append (hs : RenderedAs cfg esc s us) (ht : RenderedAs cfg esc t vs) :
    RenderedAs cfg esc (s ++ t) (us ++ vs) where
  piece u hu := by
    rcases List.mem_append.mp hu with hu | hu
    · exact (hs.piece u hu).mono fun b hb => ⟨List.mem_append_left _ hb.1, hb.2⟩
    · exact (ht.piece u hu).mono fun b hb => ⟨List.mem_append_right _ hb.1, hb.2⟩
  empty := by
    rw [List.flatMap_append, List.append_eq_nil_iff, List.append_eq_nil_iff, hs.empty, ht.empty]
  head := by
    rw [List.flatMap_append, List.head?_append, List.head?_append]
    rcases hs.head with heq | heq
    · cases hhead : s.head? with
      | some b => exact .inl (by rw [heq, hhead]; rfl)
      | none =>
        rw [heq, hhead]
        exact ht.head
    · exact .inr (by rw [heq]; rfl)
  last := by
    rw [List.flatMap_append, List.getLast?_append, List.getLast?_append]
    by_cases hempty : t = []
    · rw [ht.empty.mpr hempty, hempty]
      exact hs.last
    · have hne := fun h => hempty (ht.empty.mp h)
      rw [List.getLast?_eq_some_getLast hne, List.getLast?_eq_some_getLast hempty,
        Option.some_or, Option.some_or, ← List.getLast?_eq_some_getLast hne,
        ← List.getLast?_eq_some_getLast hempty]
      exact ht.last

theorem RenderedAs.flatMap {ι : Type*} {text : ι → Bytes} {pieces : ι → List Piece} {xs : List ι}
    (h : ∀ x ∈ xs, RenderedAs cfg esc (text x) (pieces x)) :
    RenderedAs cfg esc (xs.flatMap text) (xs.flatMap pieces) := by
  induction xs with
  | nil => exact .nil
  | cons x xs ih =>
    rw [List.flatMap_cons, List.flatMap_cons]
    exact (h x List.mem_cons_self).append (ih fun y hy => h y (List.mem_cons_of_mem _ hy))

/-- The piece of a byte. -/
def bytePiece (cfg : XmlConfig) (esc : Bool) (b : UInt8) : Piece := ⟨escapeXml cfg esc b, [b]⟩

/-- A piece of one of the escapes with a name. -/
private theorem renderedAs_escape {b : UInt8} {w : Bytes} (hb : b ≠ space)
    (hw : ∀ c ∈ w, isEscapeByte c = true)
    (hread : ∀ value rest,
      parseEscapeXml value (ampersand :: w ++ rest) = .ok (value ++ [b], rest))
    (hlast : (ampersand :: w).getLast? ≠ some space) :
    RenderedAs cfg esc [b] [⟨ampersand :: w, [b]⟩] where
  piece u hu := by
    rw [List.mem_singleton.mp hu]
    exact .escape hw ⟨[], b, rfl, hb⟩ hread
  empty := by simp
  head := .inr (by simp)
  last := by simp only [List.flatMap_singleton, hlast, List.getLast?_singleton,
    Option.some.injEq, hb]

theorem renderedAs_byte (b : UInt8) : RenderedAs cfg esc [b] [bytePiece cfg esc b] := by
  have hnamed : ∀ {w : Bytes} {b : UInt8}, b ≠ space → (∀ c ∈ w, isEscapeByte c = true) →
      (∀ value rest, parseEscapeXml value (ampersand :: w ++ rest) = .ok (value ++ [b], rest)) →
      (ampersand :: w).getLast? ≠ some space → RenderedAs cfg esc [b] [⟨ampersand :: w, [b]⟩] :=
    fun h₁ h₂ h₃ h₄ => renderedAs_escape h₁ h₂ h₃ h₄
  rw [bytePiece, escapeXml]
  by_cases hquote : esc = true ∧ b = cfg.attrDelimiter
  · rw [if_pos hquote, hquote.2, XmlConfig.attrDelimiter]
    cases cfg.attrUseApos with
    | true => exact hnamed (by decide) (by decide) (fun _ _ => rfl) (by decide)
    | false => exact hnamed (by decide) (by decide) (fun _ _ => rfl) (by decide)
  · rw [if_neg hquote]
    by_cases hamp : b = ampersand
    · rw [if_pos hamp, hamp]
      exact hnamed (by decide) (by decide) (fun _ _ => rfl) (by decide)
    · rw [if_neg hamp]
      by_cases hgreater : b = greater
      · rw [if_pos hgreater, hgreater]
        exact hnamed (by decide) (by decide) (fun _ _ => rfl) (by decide)
      · rw [if_neg hgreater]
        by_cases hsmaller : b = smaller
        · rw [if_pos hsmaller, hsmaller]
          exact hnamed (by decide) (by decide) (fun _ _ => rfl) (by decide)
        · rw [if_neg hsmaller]
          refine ⟨fun u hu => ?_, by simp, .inl (by simp), by simp⟩
          rw [List.mem_singleton.mp hu]
          exact .plain ⟨List.mem_singleton_self b, hsmaller, hgreater,
            fun hesc heq => hquote ⟨hesc, heq⟩⟩ hamp

/-- The piece of a numeric reference. -/
def referencePiece (v : ℕ) : Piece :=
  ⟨codes ['&', '#', 'x'] ++ hex4 v ++ codes [';'], encodeUtf8 v⟩

theorem isEscapeByte_hexDigit (v : ℕ) : isEscapeByte (hexDigit v) = true := by
  have key : ∀ d ≤ 15, isEscapeByte (hexDigits.getD d 0) = true := by decide +kernel
  exact key _ Nat.and_le_right

theorem xmlPiece_reference {plain : UInt8 → Prop} {v : ℕ} (hlo : 0x80 ≤ v) (hhi : v < 0x10000) :
    XmlPiece plain (referencePiece v) := by
  refine .escape (w := codes ['#', 'x'] ++ hex4 v ++ codes [';']) ?_ ?_
    fun value rest => parseEscapeXml_reference hhi value rest
  · intro c hc
    simp only [hex4, List.mem_append, List.mem_cons, List.not_mem_nil, or_false] at hc
    rcases hc with (hc | rfl | rfl | rfl | rfl) | hc
    · revert c
      decide
    · exact isEscapeByte_hexDigit _
    · exact isEscapeByte_hexDigit _
    · exact isEscapeByte_hexDigit _
    · exact isEscapeByte_hexDigit _
    · revert c
      decide
  · obtain ⟨bs, b, h, hb⟩ := exists_encodeUtf8_eq_concat hlo
    refine ⟨bs, b, h, ?_⟩
    rintro rfl
    exact absurd hb (by decide)

/-- The pieces of a character where code points are escaped. -/
def charPieces (cfg : XmlConfig) (esc : Bool) (c : Char) : List Piece :=
  if c.toNat < 0x80 then [bytePiece cfg esc (UInt8.ofNat c.toNat)]
  else if c.toNat ≤ 0xFFFF then [referencePiece c.toNat]
  else [referencePiece (leadSurrogate c.toNat), referencePiece (trailSurrogate c.toNat)]

/-- A text that is written in references. -/
private theorem renderedAs_references {b : UInt8} {w : Bytes} (hb : b ≠ space)
    (hpiece : ∀ u ∈ us, ∃ v, u = referencePiece v ∧ 0x80 ≤ v ∧ v < 0x10000)
    (hw : us.flatMap Piece.written = ampersand :: (w ++ [semicolon])) :
    RenderedAs cfg esc (s ++ [b]) us where
  piece u hu := by
    obtain ⟨v, rfl, hlo, hhi⟩ := hpiece u hu
    exact xmlPiece_reference hlo hhi
  empty := by simp [hw]
  head := .inr (by rw [hw]; rfl)
  last := by
    have hsemicolon : semicolon ≠ space := by decide
    rw [hw, ← List.cons_append, List.getLast?_concat, List.getLast?_concat]
    simp [hb, hsemicolon]

theorem renderedAs_char (c : Char) :
    RenderedAs cfg esc (String.utf8EncodeChar c) (charPieces cfg esc c) := by
  rw [charPieces]
  by_cases hc : c.toNat < 0x80
  · rw [if_pos hc, utf8EncodeChar_of_lt hc]
    exact renderedAs_byte _
  · rw [if_neg hc]
    rw [not_lt] at hc
    have hrange := toNat_range c
    obtain ⟨bs, b, hbs, hb⟩ := exists_encodeUtf8_eq_concat hc
    have hspace : b ≠ space := by
      rintro rfl
      exact absurd hb (by decide)
    rw [← encodeUtf8_toNat, hbs]
    by_cases hplane : c.toNat ≤ 0xFFFF
    · rw [if_pos hplane]
      refine renderedAs_references (w := codes ['#', 'x'] ++ hex4 c.toNat) hspace ?_ rfl
      intro u hu
      exact ⟨_, List.mem_singleton.mp hu, hc, by omega⟩
    · rw [if_neg hplane]
      have hbounds := surrogate_bounds (show c.toNat < 0x110000 by omega)
      refine renderedAs_references (w := codes ['#', 'x'] ++ hex4 (leadSurrogate c.toNat) ++
        codes [';', '&', '#', 'x'] ++ hex4 (trailSurrogate c.toNat)) hspace ?_ rfl
      intro u hu
      rcases List.mem_cons.mp hu with rfl | hu
      · exact ⟨_, rfl, by omega, by omega⟩
      · exact ⟨_, List.mem_singleton.mp hu, by omega, by omega⟩

theorem read_charPieces (c : Char) : (charPieces cfg esc c).flatMap Piece.read = readAs c := by
  rw [charPieces, readAs]
  by_cases hc : c.toNat < 0x80
  · rw [if_pos hc, if_pos (by omega), utf8EncodeChar_of_lt hc]
    rfl
  · rw [if_neg hc]
    by_cases hplane : c.toNat ≤ 0xFFFF
    · rw [if_pos hplane, if_pos hplane, List.flatMap_singleton, ← encodeUtf8_toNat]
      rfl
    · rw [if_neg hplane, if_neg hplane]
      simp [referencePiece]

/-- What a step of the writer makes of a character. -/
theorem renderCharWithEscapeXml_append (hcfg : cfg.escapeUnicode = true) (c : Char) {b : UInt8}
    {bs : Bytes} (h : String.utf8EncodeChar c = b :: bs) (rest : Bytes) :
    renderCharWithEscapeXml cfg esc b (bs ++ rest) =
      .ok ((charPieces cfg esc c).flatMap Piece.written, rest) := by
  rw [charPieces]
  by_cases hc : c.toNat < 0x80
  · rw [utf8EncodeChar_of_lt hc] at h
    obtain ⟨rfl, rfl⟩ := List.cons_eq_cons.mp h
    have hsmall : ¬ 0x80 ≤ (UInt8.ofNat c.toNat).toNat := by
      rw [UInt8.toNat_ofNat', Nat.mod_eq_of_lt (by omega)]
      omega
    rw [if_pos hc, renderCharWithEscapeXml, if_neg fun h => hsmall h.2]
    simp [bytePiece]
  · rw [if_neg hc]
    rw [not_lt] at hc
    rw [renderCharWithEscapeXml, if_pos ⟨hcfg, le_of_utf8EncodeChar hc h⟩, ← List.cons_append, ← h]
    by_cases hplane : c.toNat ≤ 0xFFFF
    · rw [if_pos hplane, writeUnicodeToString_of_le true hplane]
      simp [referencePiece]
    · rw [if_neg hplane, writeUnicodeToString_of_lt true (Nat.not_le.mp hplane)]
      simp [referencePiece, codes]

/-- Every text is written in pieces, and they read as the text if it is of the basic plane. -/
theorem exists_renderedAs (esc : Bool) (hs : cfg.Accepts s) :
    ∃ us, RenderedAs cfg esc s us ∧
      renderStringWithEscapeXml cfg esc s = .ok (us.flatMap Piece.written) ∧
      (us.flatMap Piece.read = s ↔ cfg.InPlane s) := by
  by_cases hcfg : cfg.escapeUnicode = true
  · obtain ⟨cs, rfl⟩ := hs hcfg
    refine ⟨cs.flatMap (charPieces cfg esc), .flatMap fun c _ => renderedAs_char c, ?_, ?_⟩
    · rw [List.flatMap_assoc]
      exact writeChars_flatMap (fun c _ => utf8EncodeChar_ne_nil c)
        (fun c _ _ _ h rest => renderCharWithEscapeXml_append hcfg c h rest) le_rfl
    · rw [List.flatMap_assoc, List.flatMap_congr fun c _ => read_charPieces c,
        flatMap_readAs_eq_iff, ← forall_mem_utf8_lt_iff]
      exact ⟨fun h _ => h, fun h => h hcfg⟩
  · -- byte by byte
    have hself : ∀ t : Bytes, t.flatMap (fun b => [b]) = t := List.flatMap_singleton'
    refine ⟨s.flatMap fun b => [bytePiece cfg esc b], ?_, ?_, ?_⟩
    · have hbytes : RenderedAs cfg esc (s.flatMap fun b => [b])
          (s.flatMap fun b => [bytePiece cfg esc b]) := .flatMap fun b _ => renderedAs_byte b
      rwa [hself] at hbytes
    · have hstep : ∀ b ∈ s, ∀ b' bs, [b] = b' :: bs → ∀ rest,
          renderCharWithEscapeXml cfg esc b' (bs ++ rest) = .ok (escapeXml cfg esc b, rest) := by
        intro b _ b' bs h rest
        obtain ⟨rfl, rfl⟩ := List.cons_eq_cons.mp h
        rw [renderCharWithEscapeXml, if_neg fun h => hcfg h.1]
        rfl
      have hwrite := writeChars_flatMap (fun b _ => ⟨b, [], rfl⟩) hstep
        (Nat.le_of_eq (congrArg List.length (hself s)))
      rw [hself] at hwrite
      rw [renderStringWithEscapeXml, hwrite, List.flatMap_assoc]
      simp [bytePiece]
    · rw [List.flatMap_assoc]
      simp only [List.flatMap_singleton, bytePiece, hself, true_iff]
      exact fun h => absurd h hcfg

end Pieces

/-! ### What is read back -/

/-- A value is read from the text that was written for it. -/
def ValueRoundTrips (cfg : XmlConfig) (escapeQuoteApos : Bool) (s : Bytes) : Prop :=
  ∃ w, renderStringWithEscapeXml cfg escapeQuoteApos s = .ok w ∧ xmlParseString w = .ok s

/-- A value is read from the element that was written for it, and the reader stops behind it. -/
def ElementRoundTrips (cfg : XmlConfig) (pretty : Bool) (spaces : ℕ) (name s : Bytes) : Prop :=
  ∃ w, renderElement cfg pretty spaces s name = .ok w ∧
    ∀ rest, xmlParseItem name (w ++ rest) = .ok (s, endOfTag pretty ++ rest)

/-- The attributes of a tag are read back from what is written behind its name, and the reader
stops at the end of the tag. -/
def AttributesRoundTrip (cfg : XmlConfig) (attrs : List (Bytes × Bytes)) : Prop :=
  ∀ pretty spaces name, ∃ w,
    renderXmlAttr cfg pretty spaces attrs name =
      .ok (indent pretty spaces ++ smaller :: (name ++ w)) ∧
      ∀ rest, parseAttr [] (w ++ rest) = .ok (attrs, greater :: rest)

/-- The names of attributes that can be told from the markup around them. -/
structure IsKey (k : Bytes) : Prop where
  head : ∀ b ∈ k.head?, 33 ≤ b.toNat ∧ b ≠ slash
  equal : equal ∉ k
  last : k.getLast? ≠ some space

/-- The attributes that come back. -/
def AttributeReturns (cfg : XmlConfig) (kv : Bytes × Bytes) : Prop :=
  cfg.InPlane kv.1 ∧ cfg.InPlane kv.2 ∧ kv.2.getLast? ≠ some space

section RoundTrip

variable {cfg : XmlConfig} {esc : Bool} {s : Bytes} {us : List Piece}

theorem RenderedAs.decodes (h : RenderedAs cfg esc s us) :
    xmlParseString (us.flatMap Piece.written) = .ok (us.flatMap Piece.read) :=
  xmlParseString_flatMap fun u hu => (h.piece u hu).decodes

theorem valueRoundTrips_iff (hs : cfg.Accepts s) :
    ValueRoundTrips cfg esc s ↔ cfg.InPlane s := by
  obtain ⟨us, hus, hrender, hread⟩ := exists_renderedAs esc hs
  rw [← hread, ValueRoundTrips, hrender]
  constructor
  · rintro ⟨w, hw, hparse⟩
    rw [← Except.ok.inj hw, hus.decodes] at hparse
    exact Except.ok.inj hparse
  · intro h
    exact ⟨_, rfl, by rw [hus.decodes, h]⟩

/-! #### Elements -/

/-- Markup is not found in the text of a value. -/
theorem RenderedAs.not_mem {c : UInt8} (h : RenderedAs cfg esc s us)
    (hc : ¬ (c ∈ s ∧ MayStand cfg esc c)) (hamp : c ≠ ampersand)
    (hescape : isEscapeByte c = false) :
    c ∉ us.flatMap Piece.written :=
  not_mem_written h.piece hc hamp hescape

/-- White space is not skipped before the text of a value that does not start with it. -/
theorem RenderedAs.skipSapcesAndNewline (h : RenderedAs cfg esc s us)
    (hs : ∀ b ∈ s.head?, 33 ≤ b.toNat) {c : UInt8} (hc : 33 ≤ c.toNat) (rest : Bytes) :
    skipSapcesAndNewline (us.flatMap Piece.written ++ c :: rest) =
      us.flatMap Piece.written ++ c :: rest := by
  cases hw : us.flatMap Piece.written with
  | nil => exact skipSapcesAndNewline_cons hc
  | cons b w =>
    refine skipSapcesAndNewline_cons ?_
    rcases h.head with hhead | hhead
    · rw [hw] at hhead
      exact hs b hhead.symm
    · rw [hw, List.head?_cons, Option.some.injEq] at hhead
      rw [hhead]
      decide

theorem xmlParseItem_renderElement {name : Bytes} (hname : greater ∉ name) {pretty : Bool}
    {spaces : ℕ} (h : RenderedAs cfg false s us) (hfirst : ∀ b ∈ s.head?, 33 ≤ b.toNat)
    (hlast : s.getLast? ≠ some space) (rest : Bytes) :
    xmlParseItem name (renderHead pretty spaces name ++ (us.flatMap Piece.written ++
      renderTail pretty 0 name) ++ rest) =
        .ok (us.flatMap Piece.read, endOfTag pretty ++ rest) := by
  have htag : greater ∉ indent pretty spaces ++ smaller :: name := by
    have hne : greater ≠ smaller ∧ greater ≠ 0x09 := by decide
    cases pretty <;> simp [indent, hname, hne]
  have hsmaller : smaller ∉ us.flatMap Piece.written :=
    h.not_mem (fun hc => hc.2.1 rfl) (by decide) (by decide)
  have htext : renderHead pretty spaces name ++ (us.flatMap Piece.written ++
      renderTail pretty 0 name) ++ rest =
        (indent pretty spaces ++ smaller :: name) ++ greater :: (us.flatMap Piece.written ++
          smaller :: slash :: (name ++ greater :: (endOfTag pretty ++ rest))) := by
    cases pretty <;> simp [renderHead, renderTail, indent]
  rw [htext, xmlParseItem, skipTill_append htag]
  simp only [Except.bind, List.tail_cons]
  rw [h.skipSapcesAndNewline hfirst (by decide), skipPass_append hsmaller,
    rdropWhile_eq_self (h.last.not.mpr hlast)]
  simp only [h.decodes, matchCloseTag_append]
  rfl

theorem elementRoundTrips_iff {name : Bytes} (hname : greater ∉ name) {pretty : Bool} {spaces : ℕ}
    (hs : cfg.Accepts s) (hfirst : ∀ b ∈ s.head?, 33 ≤ b.toNat)
    (hlast : s.getLast? ≠ some space) :
    ElementRoundTrips cfg pretty spaces name s ↔ cfg.InPlane s := by
  obtain ⟨us, hus, hrender, hread⟩ := exists_renderedAs false hs
  have hparse : ∀ rest, xmlParseItem name (renderHead pretty spaces name ++
      (us.flatMap Piece.written ++ renderTail pretty 0 name) ++ rest) =
        .ok (us.flatMap Piece.read, endOfTag pretty ++ rest) :=
    xmlParseItem_renderElement hname hus hfirst hlast
  rw [← hread, ElementRoundTrips, renderElement, renderXmlValue, hrender]
  constructor
  · rintro ⟨w, hw, hroundTrip⟩
    have := (hparse []).symm.trans ((congrArg _ (congrArg (· ++ []) (Except.ok.inj hw))).trans
      (hroundTrip []))
    exact (Prod.mk.inj (Except.ok.inj this)).1
  · intro h
    exact ⟨_, rfl, fun rest => by rw [hparse, h]⟩

/-! #### Attributes -/

/-- The value of an attribute is what stands between two delimiters. -/
theorem parseAttrValue_append {w r : Bytes} (hw : cfg.attrDelimiter ∉ w)
    (hr : xmlParseString (w.rdropWhile fun c => c = space) = .ok r) (rest : Bytes) :
    parseAttrValue (cfg.attrDelimiter :: (w ++ cfg.attrDelimiter :: rest)) = .ok (r, rest) := by
  rw [parseAttrValue]
  rw [XmlConfig.attrDelimiter] at hw ⊢
  cases happly : cfg.attrUseApos with
  | true =>
    have hne : ¬ apos = quote := by decide
    simp only [happly, if_true] at hw ⊢
    rw [skipSapcesAndNewline_cons (by decide)]
    simp only [if_neg hne, if_true, skipPass_append hw, Except.bind, hr]
    rfl
  | false =>
    simp only [happly, Bool.false_eq_true, if_false] at hw ⊢
    rw [skipSapcesAndNewline_cons (by decide)]
    simp only [if_true, skipPass_append hw, Except.bind, hr]
    rfl

/-- The name of an attribute does not look like the end of the tag. -/
theorem RenderedAs.exists_eq_cons_of_isKey (h : RenderedAs cfg false s us) (hkey : IsKey s)
    (rest : Bytes) :
    ∃ c it, us.flatMap Piece.written ++ equal :: rest = c :: it ∧ ¬ (c = greater ∨ c = slash) := by
  cases hw : us.flatMap Piece.written with
  | nil => exact ⟨equal, rest, rfl, by decide⟩
  | cons c w =>
    refine ⟨c, w ++ equal :: rest, rfl, ?_⟩
    rintro (rfl | rfl)
    · refine h.not_mem (fun hc => hc.2.2.1 rfl) (by decide) (by decide) (c := greater) ?_
      rw [hw]
      exact List.mem_cons_self
    · rcases h.head with hhead | hhead
      · rw [hw] at hhead
        exact (hkey.head slash hhead.symm).2 rfl
      · rw [hw] at hhead
        exact absurd (Option.some.inj hhead) (by decide)

private theorem parseAttrLoop_succ (n : ℕ) (value : List (Bytes × Bytes)) {it : Bytes}
    (hne : it ≠ []) :
    parseAttrLoop (n + 1) value it =
      match skipSapcesAndNewline it with
      | [] => raise "Expected: ="
      | c :: it =>
        if c = greater ∨ c = slash then .ok (value, c :: it)
        else
          (skipPass equal (c :: it)).bind fun key =>
            (xmlParseString key.1).bind fun k =>
              (parseAttrValue key.2).bind fun v => parseAttrLoop n (emplace value k v.1) v.2 := by
  cases it with
  | nil => exact absurd rfl hne
  | cons c it => rfl

/-- One attribute that was written is taken off by the loop. -/
theorem exists_parseAttrLoop_renderAttribute {kv : Bytes × Bytes} (hkey : IsKey kv.1)
    (hk : cfg.Accepts kv.1) (hv : cfg.Accepts kv.2) :
    ∃ w kv', renderAttribute cfg kv = .ok w ∧ 1 ≤ w.length ∧
      (kv' = kv ↔ AttributeReturns cfg kv) ∧
      ∀ n value rest, parseAttrLoop (n + 1) value (w ++ rest) =
        parseAttrLoop n (emplace value kv'.1 kv'.2) rest := by
  obtain ⟨us, hus, hrenderKey, hreadKey⟩ := exists_renderedAs false hk
  obtain ⟨vs, hvs, hrenderValue, hreadValue⟩ := exists_renderedAs true hv
  obtain ⟨vs', hvs', hdrop, hlast⟩ := exists_rdropWhile_written hvs.piece
  have hequal : equal ∉ us.flatMap Piece.written :=
    hus.not_mem (fun hc => hkey.equal hc.1) (by decide) (by decide)
  have hdelimiter : cfg.attrDelimiter ∉ vs.flatMap Piece.written := by
    refine hvs.not_mem (fun hc => hc.2.2.2 rfl rfl) ?_ ?_ <;>
      (rw [XmlConfig.attrDelimiter]; split_ifs <;> decide)
  refine ⟨_, (us.flatMap Piece.read, vs'.flatMap Piece.read),
    by rw [renderAttribute, hrenderKey, hrenderValue]; rfl, by simp, ?_, fun n value rest => ?_⟩
  · rw [AttributeReturns, ← hreadKey, ← hreadValue, Prod.ext_iff]
    refine and_congr_right fun _ => ⟨fun h => ?_, fun h => ?_⟩
    · -- what was read ends in no space, so nothing was dropped
      have hspace : kv.2.getLast? ≠ some space := by rwa [← h]
      rw [rdropWhile_eq_self (hvs.last.not.mpr hspace)] at hdrop
      have hvalue := hvs.decodes
      rw [hdrop, xmlParseString_flatMap fun u hu => (hvs' u hu).decodes] at hvalue
      exact ⟨(Except.ok.inj hvalue).symm.trans h, hspace⟩
    · rw [rdropWhile_eq_self (hvs.last.not.mpr h.2)] at hdrop
      have hvalue := hvs.decodes
      rw [hdrop, xmlParseString_flatMap fun u hu => (hvs' u hu).decodes] at hvalue
      exact (Except.ok.inj hvalue).trans h.1
  · have hvalue := parseAttrValue_append hdelimiter
      (hdrop ▸ xmlParseString_flatMap fun u hu => (hvs' u hu).decodes) rest
    have hpass := skipPass_append hequal
      (cfg.attrDelimiter :: (vs.flatMap Piece.written ++ cfg.attrDelimiter :: rest))
    rw [rdropWhile_eq_self (hus.last.not.mpr hkey.last)] at hpass
    have htext : space :: (us.flatMap Piece.written ++ equal :: cfg.attrDelimiter ::
        (vs.flatMap Piece.written ++ [cfg.attrDelimiter])) ++ rest =
      space :: (us.flatMap Piece.written ++ equal :: cfg.attrDelimiter ::
        (vs.flatMap Piece.written ++ cfg.attrDelimiter :: rest)) := by simp
    have hskip : ∀ it, skipSapcesAndNewline (space :: it) = skipSapcesAndNewline it := fun _ => rfl
    rw [htext, parseAttrLoop_succ _ _ (by simp), hskip,
      hus.skipSapcesAndNewline (fun b hb => (hkey.head b hb).1) (by decide)]
    obtain ⟨c, it, hit, hc⟩ := hus.exists_eq_cons_of_isKey hkey
      (cfg.attrDelimiter :: (vs.flatMap Piece.written ++ cfg.attrDelimiter :: rest))
    rw [hit] at hpass ⊢
    simp only [if_neg hc, hpass, Except.bind, hus.decodes, hvalue]

/-- The attributes that were written are taken off one after the other. -/
theorem exists_parseAttrLoop_renderAttributes {attrs : List (Bytes × Bytes)}
    (hkeys : ∀ kv ∈ attrs, IsKey kv.1) (h : ∀ kv ∈ attrs, cfg.Accepts kv.1 ∧ cfg.Accepts kv.2) :
    ∃ w attrs', renderAttributes cfg attrs = .ok w ∧ attrs.length ≤ w.length ∧
      attrs'.length = attrs.length ∧ (attrs' = attrs ↔ ∀ kv ∈ attrs, AttributeReturns cfg kv) ∧
      ∀ n value rest, parseAttrLoop (n + attrs.length) value (w ++ rest) =
        parseAttrLoop n (attrs'.foldl (fun value kv => emplace value kv.1 kv.2) value) rest := by
  induction attrs with
  | nil => exact ⟨[], [], rfl, le_rfl, rfl, by simp, fun _ _ _ => rfl⟩
  | cons kv attrs ih =>
    obtain ⟨w, kv', hw, hlen, hreturns, hstep⟩ := exists_parseAttrLoop_renderAttribute
      (hkeys kv List.mem_cons_self) (h kv List.mem_cons_self).1 (h kv List.mem_cons_self).2
    obtain ⟨w', attrs', hw', hlen', hlength, hreturns', hrun⟩ :=
      ih (fun kv hkv => hkeys kv (List.mem_cons_of_mem _ hkv))
        fun kv hkv => h kv (List.mem_cons_of_mem _ hkv)
    refine ⟨w ++ w', kv' :: attrs', ?_, ?_, ?_, ?_, fun n value rest => ?_⟩
    · rw [renderAttributes, hw, hw']
      rfl
    · rw [List.length_append, List.length_cons]
      omega
    · rw [List.length_cons, List.length_cons, hlength]
    · rw [List.cons_eq_cons, hreturns, hreturns', List.forall_mem_cons]
    · rw [List.append_assoc, List.length_cons, ← Nat.add_assoc, hstep, hrun]
      rfl

/-- A map holds what was put into it, in the order of the first entries of its keys. -/
theorem emplace_sublist (value : List (Bytes × Bytes)) (k v : Bytes) :
    (emplace value k v).Sublist (value ++ [(k, v)]) := by
  rw [emplace]
  split_ifs
  · exact List.sublist_append_left _ _
  · exact List.Sublist.refl _

theorem foldl_emplace_sublist (value attrs : List (Bytes × Bytes)) :
    (attrs.foldl (fun value kv => emplace value kv.1 kv.2) value).Sublist (value ++ attrs) := by
  induction attrs generalizing value with
  | nil => simp
  | cons kv attrs ih =>
    have := (emplace_sublist value kv.1 kv.2).append_right attrs
    rw [List.append_assoc] at this
    exact (ih _).trans this

theorem foldl_emplace_of_nodup {value attrs : List (Bytes × Bytes)}
    (h : ((value ++ attrs).map Prod.fst).Nodup) :
    attrs.foldl (fun value kv => emplace value kv.1 kv.2) value = value ++ attrs := by
  induction attrs generalizing value with
  | nil => simp
  | cons kv attrs ih =>
    have hnew : kv.1 ∉ value.map Prod.fst := by
      rw [List.map_append, List.map_cons] at h
      exact fun hmem => (List.nodup_append.mp h).2.2 _ hmem _ List.mem_cons_self rfl
    rw [List.foldl_cons, emplace, if_neg hnew, ih (by simpa using h)]
    simp

theorem attributesRoundTrip_iff {attrs : List (Bytes × Bytes)}
    (hnodup : (attrs.map Prod.fst).Nodup) (hkeys : ∀ kv ∈ attrs, IsKey kv.1)
    (h : ∀ kv ∈ attrs, cfg.Accepts kv.1 ∧ cfg.Accepts kv.2) :
    AttributesRoundTrip cfg attrs ↔ ∀ kv ∈ attrs, AttributeReturns cfg kv := by
  obtain ⟨w, attrs', hw, hlen, hlength, hreturns, hrun⟩ :=
    exists_parseAttrLoop_renderAttributes hkeys h
  have hparse : ∀ rest, parseAttr [] (w ++ greater :: rest) =
      .ok (attrs'.foldl (fun value kv => emplace value kv.1 kv.2) [], greater :: rest) := by
    intro rest
    have hfuel : (w ++ greater :: rest).length = w.length - attrs.length + rest.length + 1 +
        attrs.length := by
      rw [List.length_append, List.length_cons]
      omega
    rw [parseAttr, hfuel, hrun, parseAttrLoop_succ _ _ (by simp),
      skipSapcesAndNewline_cons (by decide)]
    exact if_pos (.inl rfl)
  rw [← hreturns]
  have hrender : ∀ pretty spaces name, renderXmlAttr cfg pretty spaces attrs name =
      .ok (indent pretty spaces ++ smaller :: (name ++ (w ++ [greater]))) := by
    intro pretty spaces name
    rw [renderXmlAttr, hw]
    rfl
  constructor
  · intro hroundTrip
    obtain ⟨w', hw', hread⟩ := hroundTrip false 0 []
    rw [hrender] at hw'
    obtain rfl : w ++ [greater] = w' := by simpa [indent] using Except.ok.inj hw'
    have hread := hread []
    rw [List.append_assoc] at hread
    have hfold := (Prod.mk.inj (Except.ok.inj ((hparse []).symm.trans hread))).1
    have hsub := foldl_emplace_sublist [] attrs'
    rw [hfold, List.nil_append] at hsub
    exact (hsub.eq_of_length hlength.symm).symm
  · rintro rfl pretty spaces name
    refine ⟨_, hrender pretty spaces name, fun rest => ?_⟩
    rw [List.append_assoc]
    refine (hparse rest).trans ?_
    rw [foldl_emplace_of_nodup (by simpa using hnodup), List.nil_append]

end RoundTrip

/-! ### The round trip -/

/-- Values and elements are read back if and only if no escaped code point stands behind the basic
plane. Attributes are read back if and only if, in addition, no value ends in a space. -/
theorem xmlTextRoundTrips_iff (cfg : XmlConfig) :
    (∀ esc s, cfg.Accepts s → (ValueRoundTrips cfg esc s ↔ cfg.InPlane s)) ∧
    (∀ pretty spaces name s, greater ∉ name → cfg.Accepts s → (∀ b ∈ s.head?, 33 ≤ b.toNat) →
      s.getLast? ≠ some space →
        (ElementRoundTrips cfg pretty spaces name s ↔ cfg.InPlane s)) ∧
    ∀ attrs, (attrs.map Prod.fst).Nodup → (∀ kv ∈ attrs, IsKey kv.1) →
      (∀ kv ∈ attrs, cfg.Accepts kv.1 ∧ cfg.Accepts kv.2) →
        (AttributesRoundTrip cfg attrs ↔
          ∀ kv ∈ attrs, cfg.InPlane kv.1 ∧ cfg.InPlane kv.2 ∧ kv.2.getLast? ≠ some space) :=
  ⟨fun _ _ hs => valueRoundTrips_iff hs,
    fun _ _ _ _ hname hs hfirst hlast => elementRoundTrips_iff hname hs hfirst hlast,
    fun _ hnodup hkeys h => attributesRoundTrip_iff hnodup hkeys h⟩

/-- The element `<a>&<x></a>`. -/
theorem elementRoundTrips_ampersand :
    ElementRoundTrips ⟨true, false⟩ false 0 [0x61] [0x26, 0x3C, 0x78, 0x3E] :=
  ((xmlTextRoundTrips_iff ⟨true, false⟩).2.1 false 0 _ _ (by decide)
    (fun _ => ⟨['&', '<', 'x', '>'], by decide⟩) (by rintro _ ⟨⟩; decide)
      (by decide)).mpr fun _ => by decide

/-- A space at the end of an attribute is lost, and so is a character behind the basic plane. -/
theorem not_attributesRoundTrip_space :
    ¬ AttributesRoundTrip ⟨false, false⟩ [([0x6B], [0x76, 0x20])] ∧
      ¬ ValueRoundTrips ⟨true, false⟩ false (utf8 ['😀']) := by
  constructor
  · intro hroundTrip
    obtain ⟨w, hw, hread⟩ := hroundTrip false 0 [0x61]
    have hwrite : renderXmlAttr ⟨false, false⟩ false 0 [([0x6B], [0x76, 0x20])] [0x61] =
        .ok [0x3C, 0x61, 0x20, 0x6B, 0x3D, 0x22, 0x76, 0x20, 0x22, 0x3E] := by decide +kernel
    rw [hwrite] at hw
    obtain rfl : [0x20, 0x6B, 0x3D, 0x22, 0x76, 0x20, 0x22, 0x3E] = w :=
      (List.cons.inj (List.cons.inj (Except.ok.inj hw)).2).2
    have := hread []
    revert this
    decide +kernel
  · rintro ⟨w, hw, hparse⟩
    have hwrite : renderStringWithEscapeXml ⟨true, false⟩ false (utf8 ['😀']) =
        .ok ((referencePiece 0xD83D).written ++ (referencePiece 0xDE00).written) := by
      decide +kernel
    rw [hwrite] at hw
    obtain rfl := Except.ok.inj hw
    revert hparse
    decide +kernel

end Yalantinglibs.Iguana
