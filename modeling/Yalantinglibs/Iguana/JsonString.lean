import Yalantinglibs.Data.EscapedText
import Yalantinglibs.Iguana.JsonUtil

/-!
# JSON strings

How a string is written, `write_string_with_escape` of `iguana/util.hpp`, and how it is read,
`parse_escape` and the string overload of `from_json_impl` of `iguana/json_reader.hpp`.

The writer gives every code point behind ASCII as one or two escapes of 16 bits, and the reader
turns every escape into UTF-8 by itself: a pair of surrogates becomes six bytes.

## Main definitions

* `writeStringWithEscape` — the writer
* `parseEscape`, `fromJsonString` — the reader
* `writtenAs` — what the writer makes of a scalar value

## Main results

* `fromJsonString_write` — the reader gives back what `readAs` says, and stops behind the quote
-/

set_option autoImplicit false

namespace Yalantinglibs.Iguana

open ByteCodec EscapedText

/-! ### The writer -/

/-- The table `escape`: the character behind the backslash, `0` for none. -/
def escape (c : UInt8) : UInt8 :=
  if c = 0x08 then 0x62
  else if c = 0x09 then 0x74
  else if c = 0x0A then 0x6E
  else if c = 0x0C then 0x66
  else if c = 0x0D then 0x72
  else if c.toNat < 0x20 then 0x75
  else if c = quote then quote
  else if c = backslash then backslash
  else 0

/-- One step of the loop of `write_string_with_escape`, for a text that is not at its end: what
is written, and the text that is left. -/
def writeCharWithEscape (c : UInt8) (it : Bytes) : Parsed Bytes :=
  if 0x80 ≤ c.toNat then writeUnicodeToString false (c :: it)
  else if escape c ≠ 0 then
    .ok (backslash :: escape c ::
      (if escape c = 0x75 then
        -- another control character
        [0x30, 0x30, hexDigit (c.toNat >>> 4), hexDigit (c.toNat &&& 0xF)]
      else []), it)
  else .ok ([c], it)

/-- `write_string_with_escape`. -/
def writeStringWithEscape (s : Bytes) : Except Fault Bytes :=
  writeChars writeCharWithEscape s.length s

/-! ### The reader -/

/-- `parse_escape`, behind the backslash. -/
def parseEscape (value : Bytes) : Bytes → Parsed Bytes
  | [] => raise "Expected \""
  | c :: it =>
    if c = 0x75 then
      if it.length ≤ 4 then raise "Expected 4 hexadecimal digits"
      else (parseUnicodeHex4 it).map fun p => (value ++ encodeUtf8 p.1, p.2)
    else if c = 0x6E then .ok (value ++ [0x0A], it)
    else if c = 0x74 then .ok (value ++ [0x09], it)
    else if c = 0x72 then .ok (value ++ [0x0D], it)
    else if c = 0x62 then .ok (value ++ [0x08], it)
    else if c = 0x66 then .ok (value ++ [0x0C], it)
    -- the escaped character itself
    else .ok (value ++ [c], it)

/-- The loop of `from_json_impl` for a string. It ends without an error at the end of the text. -/
def fromJsonChars : ℕ → Bytes → Bytes → Parsed Bytes
  | _, value, [] => .ok (value, [])
  | 0, _, _ => .error .tooDeep
  | n + 1, value, it =>
    (skipTillEscapeOrQoute it).bind fun stop =>
      let value := value ++ it.take (it.length - stop.length)
      match stop with
      | [] => .ok (value, [])
      | c :: rest =>
        if c = quote then .ok (value, rest)
        else (parseEscape value rest).bind fun p => fromJsonChars n p.1 p.2

/-- `from_json_impl` for a string, behind the opening quote if `skip` holds. -/
def fromJsonString (skip : Bool) (it : Bytes) : Parsed Bytes :=
  (if skip then .ok it else (skipWs it).bind (matchChars [quote])).bind fun it =>
    fromJsonChars it.length [] it

/-! ### What is written for a scalar value -/

/-- An escape of 16 bits. -/
def unicodeEscape (v : ℕ) : Bytes := codes ['\\', 'u'] ++ hex4 v

/-- What the writer makes of a scalar value. -/
def writtenAs (c : Char) : Bytes :=
  if c.toNat < 0x80 then
    let b := UInt8.ofNat c.toNat
    if escape b = 0x75 then unicodeEscape c.toNat
    else if escape b ≠ 0 then [backslash, escape b]
    else [b]
  else if c.toNat ≤ 0xFFFF then unicodeEscape c.toNat
  else unicodeEscape (leadSurrogate c.toNat) ++ unicodeEscape (trailSurrogate c.toNat)

section Written

variable {c : Char} {cs : List Char}

theorem writeCharWithEscape_append {b : UInt8} {bs : Bytes} (h : String.utf8EncodeChar c = b :: bs)
    (rest : Bytes) : writeCharWithEscape b (bs ++ rest) = .ok (writtenAs c, rest) := by
  by_cases hc : c.toNat < 0x80
  · rw [utf8EncodeChar_of_lt hc] at h
    obtain ⟨rfl, rfl⟩ := List.cons_eq_cons.mp h
    rw [writtenAs, if_pos hc]
    generalize c.toNat = v at hc
    have hsmall : ¬ 0x80 ≤ (UInt8.ofNat v).toNat := by
      rw [UInt8.toNat_ofNat', Nat.mod_eq_of_lt (by omega)]
      omega
    rw [writeCharWithEscape, if_neg hsmall, List.nil_append]
    have hhex : ∀ v < 0x80, escape (UInt8.ofNat v) = 0x75 →
        backslash :: 0x75 :: [0x30, 0x30, hexDigit ((UInt8.ofNat v).toNat >>> 4),
          hexDigit ((UInt8.ofNat v).toNat &&& 0xF)] = unicodeEscape v := by decide +kernel
    by_cases hu : escape (UInt8.ofNat v) = 0x75
    · simp only [hu, if_true, ← hhex v hc hu]
      rfl
    · by_cases hne : escape (UInt8.ofNat v) ≠ 0
      · simp only [if_neg hu, if_pos hne]
      · simp only [if_neg hu, if_neg hne]
  · rw [not_lt] at hc
    have hlarge := le_of_utf8EncodeChar hc h
    rw [writeCharWithEscape, if_pos hlarge, ← List.cons_append, ← h, writtenAs,
      if_neg (Nat.not_lt.mpr hc)]
    by_cases hplane : c.toNat ≤ 0xFFFF
    · rw [writeUnicodeToString_of_le false hplane, if_pos hplane]
      simp [unicodeEscape]
    · rw [writeUnicodeToString_of_lt false (Nat.not_le.mp hplane), if_neg hplane]
      simp [unicodeEscape]

/-- A text is written character by character. -/
theorem writeStringWithEscape_utf8 (cs : List Char) :
    writeStringWithEscape (utf8 cs) = .ok (cs.flatMap writtenAs) :=
  writeChars_flatMap (fun c _ => utf8EncodeChar_ne_nil c)
    (fun _ _ _ _ h rest => writeCharWithEscape_append h rest) le_rfl

/-! ### What is read for it -/

private theorem fromJsonChars_succ (n : ℕ) (value : Bytes) {it : Bytes} (hne : it ≠ []) :
    fromJsonChars (n + 1) value it =
      (skipTillEscapeOrQoute it).bind fun stop =>
        let value := value ++ it.take (it.length - stop.length)
        match stop with
        | [] => .ok (value, [])
        | c :: rest =>
          if c = quote then .ok (value, rest)
          else (parseEscape value rest).bind fun p => fromJsonChars n p.1 p.2 := by
  cases it with
  | nil => exact absurd rfl hne
  | cons c it => rfl

/-- The closing quote behind a run of plain bytes. -/
theorem fromJsonChars_quote (n : ℕ) (value : Bytes) {p : Bytes}
    (hp : ∀ b ∈ p, isEscapeOrQoute b = false) (rest : Bytes) :
    fromJsonChars (n + 1) value (p ++ quote :: rest) = .ok (value ++ p, rest) := by
  rw [fromJsonChars_succ n value (by simp), skipTillEscapeOrQoute_append hp (by decide)]
  simp [Except.bind]

/-- An escape behind a run of plain bytes. -/
theorem fromJsonChars_escape (n : ℕ) (value : Bytes) {p : Bytes}
    (hp : ∀ b ∈ p, isEscapeOrQoute b = false) {e : UInt8} {it out rest : Bytes}
    (he : ∀ value, parseEscape value (e :: it) = .ok (value ++ out, rest)) :
    fromJsonChars (n + 1) value (p ++ backslash :: e :: it) =
      fromJsonChars n (value ++ p ++ out) rest := by
  have hquote : ¬ backslash = quote := by decide
  rw [fromJsonChars_succ n value (by simp), skipTillEscapeOrQoute_append hp (by decide)]
  simp [Except.bind, hquote, he]

theorem unicodeEscape_length (v : ℕ) : (unicodeEscape v).length = 6 := rfl

/-- Four digits and what they stand for by themselves. -/
private theorem parseEscape_unicode {v : ℕ} (hv : v < 0x10000) {rest : Bytes} (hrest : rest ≠ [])
    (value : Bytes) :
    parseEscape value (0x75 :: (hex4 v ++ rest)) = .ok (value ++ encodeUtf8 v, rest) := by
  have hlen : ¬ (hex4 v ++ rest).length ≤ 4 := by
    have := List.length_pos_iff.mpr hrest
    rw [List.length_append, hex4]
    simp only [List.length_cons, List.length_nil]
    omega
  rw [parseEscape, if_pos rfl, if_neg hlen, parseUnicodeHex4_append hv]
  rfl

/-- The character behind a backslash stands for what was escaped. -/
private theorem parseEscape_escape {b : UInt8} (hu : escape b ≠ 0x75) (hne : escape b ≠ 0)
    (value it : Bytes) : parseEscape value (escape b :: it) = .ok (value ++ [b], it) := by
  rw [escape] at hu hne ⊢
  split_ifs at hu hne ⊢ with h1 h2 h3 h4 h5 h6 h7 h8
  · rw [h1]; rfl
  · rw [h2]; rfl
  · rw [h3]; rfl
  · rw [h4]; rfl
  · rw [h5]; rfl
  · exact absurd rfl hu
  · rw [h7]; rfl
  · rw [h8]; rfl
  · exact absurd rfl hne

private theorem isEscapeOrQoute_of_escape {b : UInt8} (h : escape b = 0) :
    isEscapeOrQoute b = false := by
  by_contra hne
  rw [Bool.not_eq_false, isEscapeOrQoute, Bool.or_eq_true, decide_eq_true_eq,
    decide_eq_true_eq] at hne
  rcases hne with rfl | rfl <;> exact absurd h (by decide)

/-- A character that was written is taken off by the loop. -/
theorem decodes_writtenAs (c : Char) {tail : Bytes} (htail : tail ≠ []) :
    Decodes fromJsonChars (isEscapeOrQoute · = false) tail ⟨writtenAs c, readAs c⟩ := by
  -- the escapes of 16 bits
  have hunicode : ∀ {v m value p rest}, v < 0x10000 → (∀ b ∈ p, isEscapeOrQoute b = false) →
      rest ≠ [] → fromJsonChars (m + 1) value (p ++ (unicodeEscape v ++ rest)) =
        fromJsonChars m (value ++ p ++ encodeUtf8 v) rest := fun hv hp hrest =>
    fromJsonChars_escape _ _ hp (parseEscape_unicode hv hrest)
  have hrange := toNat_range c
  by_cases hplane : c.toNat ≤ 0xFFFF
  · rw [readAs, if_pos hplane]
    by_cases hescape : writtenAs c = unicodeEscape c.toNat
    · refine .inr fun n m value p rest hp hm => ?_
      rw [hescape, unicodeEscape_length] at hm
      obtain ⟨m, rfl⟩ := Nat.exists_eq_add_of_le' (show 1 ≤ m by omega)
      refine ⟨m, by omega, ?_⟩
      rw [hescape, hunicode (by omega) hp (by simp [htail]), encodeUtf8_toNat]
    · have hc : c.toNat < 0x80 := by
        by_contra hc
        exact hescape (by rw [writtenAs, if_neg hc, if_pos hplane])
      rw [utf8EncodeChar_of_lt hc]
      simp only [writtenAs, if_pos hc] at hescape ⊢
      generalize UInt8.ofNat c.toNat = b at hescape ⊢
      have hu : escape b ≠ 0x75 := fun hu => hescape (by rw [if_pos hu])
      rw [if_neg hu]
      by_cases hne : escape b ≠ 0
      · refine .inr fun n m value p rest hp hm => ?_
        rw [if_pos hne] at hm ⊢
        simp only [List.length_cons, List.length_nil] at hm
        obtain ⟨m, rfl⟩ := Nat.exists_eq_add_of_le' (show 1 ≤ m by omega)
        refine ⟨m, by omega, ?_⟩
        exact fromJsonChars_escape m value hp fun value => parseEscape_escape hu hne value _
      · refine .inl ⟨b, ?_, isEscapeOrQoute_of_escape (not_not.mp hne)⟩
        rw [if_neg hne]
  · refine .inr fun n m value p rest hp hm => ?_
    have hb := surrogate_bounds (show c.toNat < 0x110000 by omega)
    have hne : unicodeEscape (trailSurrogate c.toNat) ++ (rest ++ tail) ≠ [] := by simp [htail]
    rw [writtenAs, if_neg (by omega), if_neg hplane, List.length_append, unicodeEscape_length,
      unicodeEscape_length] at hm
    obtain ⟨m, rfl⟩ := Nat.exists_eq_add_of_le' (show 2 ≤ m by omega)
    refine ⟨m, by omega, ?_⟩
    rw [writtenAs, if_neg (by omega), if_neg hplane, readAs, if_neg hplane, List.append_assoc,
      hunicode (by omega) hp hne, ← List.nil_append (unicodeEscape _ ++ (rest ++ tail)),
      hunicode (by omega) (by simp) (by simp [htail])]
    simp only [List.append_nil, List.append_assoc]

/-- Pieces up to a closing quote are read one after the other. -/
theorem fromJsonChars_pieces {us : List Piece} {rest : Bytes}
    (h : ∀ u ∈ us, Decodes fromJsonChars (isEscapeOrQoute · = false) (quote :: rest) u) :
    fromJsonChars (us.flatMap Piece.written ++ quote :: rest).length []
      (us.flatMap Piece.written ++ quote :: rest) = .ok (us.flatMap Piece.read, rest) := by
  obtain ⟨m, value, p, hm, hp, hrun, hread⟩ := exists_run_pieces h (n := 1)
    (m := (us.flatMap Piece.written ++ quote :: rest).length) [] (p := []) (by simp)
    (by simp; omega)
  obtain ⟨m, rfl⟩ := Nat.exists_eq_add_of_le' hm
  refine hrun.trans ((fromJsonChars_quote m value hp rest).trans ?_)
  rw [hread]
  rfl

theorem fromJsonString_quote (it : Bytes) :
    fromJsonString false (quote :: it) = fromJsonString true it := by
  have hquote : 33 ≤ quote.toNat := by decide
  rw [fromJsonString, if_neg Bool.false_ne_true, skipWs_cons hquote (by decide)]
  change (matchChars [quote] (quote :: it)).bind _ = _
  rw [matchChars_cons]
  rfl

/-- What was written between quotes is read character by character, and the reader stops behind
the closing quote. -/
theorem fromJsonString_write (cs : List Char) (rest : Bytes) :
    fromJsonString false (quote :: (cs.flatMap writtenAs ++ quote :: rest)) =
      .ok (cs.flatMap readAs, rest) := by
  have hdecodes : ∀ u ∈ cs.map fun c => Piece.mk (writtenAs c) (readAs c),
      Decodes fromJsonChars (isEscapeOrQoute · = false) (quote :: rest) u := by
    intro u hu
    obtain ⟨c, -, rfl⟩ := List.mem_map.mp hu
    exact decodes_writtenAs c (by simp)
  have hpieces := fromJsonChars_pieces hdecodes
  rw [List.flatMap_map, List.flatMap_map] at hpieces
  rw [fromJsonString_quote]
  exact hpieces

end Written

/-! ### The round trip -/

/-- A valid text is written, and read back between quotes as itself. -/
def StringRoundTrips (cs : List Char) : Prop :=
  ∃ w, writeStringWithEscape (utf8 cs) = .ok w ∧
    ∀ rest, fromJsonString false (quote :: (w ++ quote :: rest)) = .ok (utf8 cs, rest)

/-- A text round trips if and only if all its characters are of the basic plane. -/
theorem stringRoundTrips_iff (cs : List Char) :
    StringRoundTrips cs ↔ ∀ c ∈ cs, c.toNat ≤ 0xFFFF := by
  have hwrite := writeStringWithEscape_utf8 cs
  constructor
  · rintro ⟨w, hw, hread⟩ c hc
    rw [hwrite] at hw
    obtain rfl := Except.ok.inj hw
    have hread := (fromJsonString_write cs []).symm.trans (hread [])
    exact (flatMap_readAs_eq_iff cs).mp (Prod.mk.inj (Except.ok.inj hread)).1 c hc
  · intro h
    refine ⟨_, hwrite, fun rest => ?_⟩
    rw [fromJsonString_write, (flatMap_readAs_eq_iff cs).mpr h]

/-- A character behind the basic plane does not come back. -/
theorem not_stringRoundTrips_emoji : ¬ StringRoundTrips ['😀'] := by
  rintro ⟨w, hw, hread⟩
  have hwrite : writeStringWithEscape (utf8 ['😀']) =
      .ok (unicodeEscape 0xD83D ++ unicodeEscape 0xDE00) := by decide +kernel
  rw [hwrite] at hw
  obtain rfl := Except.ok.inj hw
  have := hread []
  revert this
  decide +kernel

end Yalantinglibs.Iguana
