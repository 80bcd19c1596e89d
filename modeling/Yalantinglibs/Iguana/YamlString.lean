import Yalantinglibs.Iguana.JsonString
import Yalantinglibs.Iguana.XmlUtil
import Yalantinglibs.Iguana.YamlUtil

/-!
# YAML strings

A string between quotes, `render_yaml_value` of `iguana/yaml_writer.hpp` with escapes, and
`parse_escape_str` and `yaml_parse_value` of `iguana/yaml_reader.hpp`. The writer is the one of
JSON; the reader knows fewer escapes and leaves a backslash that begins none of them where it is.

## Main definitions

* `renderYamlString`, `yamlParseString` — the writer and the reader
* `YamlStringRoundTrips` — what is written is read back

## Main results

* `parseEscapeStr_cons`, `parseEscapeStr_simple`, `parseEscapeStr_hex` — what the reader takes off
* `yamlStringRoundTrips_iff` — which strings come back
-/

set_option autoImplicit false

namespace Yalantinglibs.Iguana

open ByteCodec

/-! ### The writer and the reader -/

/-- `render_yaml_value` for a string, with escapes and without the line feed at the end. -/
def renderYamlString (s : Bytes) : Except Fault Bytes :=
  (writeStringWithEscape s).map fun w => quote :: (w ++ [quote])

/-- The escapes of one character that `parse_escape_str` knows, and what they stand for. -/
def yamlEscapes : List (UInt8 × UInt8) :=
  [(0x6E, 0x0A), (0x74, 0x09), (0x72, 0x0D), (0x62, 0x08), (0x66, 0x0C)]

/-- The loop of `parse_escape_str`: `start` is what has not been copied yet, from its beginning
on. Behind a backslash at the end of the range the closing quote is read, which is no escape. -/
def parseEscapeStrLoop : ℕ → Bytes → Bytes → Bytes → Except Fault Bytes
  | _, value, start, [] => .ok (value ++ start)
  | 0, _, _, _ => .error .tooDeep
  | n + 1, value, start, c :: it =>
    if c = backslash then
      match it with
      | [] => parseEscapeStrLoop n value start it
      | e :: it' =>
        -- up to the backslash
        let value' := value ++ start.take (start.length - it.length - 1)
        if e = 0x75 then
          if it'.length < 4 then raise "Expected 4 hexadecimal digits"
          else
            (parseUnicodeHex4 it').bind fun p =>
              parseEscapeStrLoop n (value' ++ encodeUtf8 p.1) p.2 p.2
        else
          match yamlEscapes.lookup e with
          | some b => parseEscapeStrLoop n (value' ++ [b]) it' it'
          | none => parseEscapeStrLoop n value start it
    else parseEscapeStrLoop n value start it

/-- `parse_escape_str`. -/
def parseEscapeStr (it : Bytes) : Except Fault Bytes := parseEscapeStrLoop it.length [] it it

/-- `"~"` and `"null"` are no values. -/
def notNull (value : Bytes) : Bytes :=
  if value = codes ['~'] ∨ value = codes ['n', 'u', 'l', 'l'] then [] else value

/-- `yaml_parse_value` for a string, on the range of the value. In an empty range the source looks
at what stands behind it. -/
def yamlParseString : Bytes → Except Fault Bytes
  | [] => .ok []
  | c :: it =>
    if c = quote then
      match it.getLast? with
      -- a quote by itself: the loop of `parse_escape_str` begins behind the end
      | none => .error .tooDeep
      | some last =>
        if last = quote then parseEscapeStr it.dropLast
        else
          -- a comment that no space precedes
          let value := it.dropLast.takeWhile fun c => c ≠ quote
          if value = it.dropLast ∨ it[value.length + 1]? ≠ some hash then raise "Expected \""
          else parseEscapeStr value
    else if c = apos then
      match it.getLast? with
      | none => raise "basic_string::_M_create"
      | some last => if last = apos then .ok (notNull it.dropLast) else raise "Expected '"
    else .ok (notNull (c :: it))

/-! ### What the reader takes off -/

section Reader

variable {c e : UInt8} {it value run : Bytes} {n : ℕ}

theorem parseHexDigits_rest {v : ℕ} {p : ℕ × Bytes} (h : parseHexDigits n v it = .ok p) :
    p.2 = it.drop n := by
  induction n generalizing v it with
  | zero => exact (congrArg Prod.snd (Except.ok.inj h)).symm
  | succ n ih =>
    rw [parseHexDigits] at h
    split at h
    · rw [ih h, List.drop_tail]
    · cases h

/-- The escapes that the reader knows, with a backslash behind which there is none of them. -/
theorem parseEscapeStrLoop_cons (hc : c ≠ backslash) (start : Bytes) :
    parseEscapeStrLoop (n + 1) value start (c :: it) = parseEscapeStrLoop n value start it :=
  if_neg hc

/-- A backslash that begins no escape. -/
def KeepsBackslash (it : Bytes) : Prop :=
  ∀ e, it.head? = some e → e ≠ 0x75 ∧ yamlEscapes.lookup e = none

theorem parseEscapeStrLoop_backslash (h : KeepsBackslash it) (start : Bytes) :
    parseEscapeStrLoop (n + 1) value start (backslash :: it) =
      parseEscapeStrLoop n value start it := by
  refine (if_pos rfl).trans ?_
  cases it with
  | nil => rfl
  | cons e it =>
    obtain ⟨hu, hnone⟩ := h e rfl
    refine (if_neg hu).trans ?_
    rw [hnone]

private theorem take_run (run it : Bytes) (c : UInt8) :
    (run ++ c :: it).take ((run ++ c :: it).length - it.length - 1) = run := by
  have hlen : (run ++ c :: it).length - it.length - 1 = run.length := by
    rw [List.length_append, List.length_cons]
    omega
  rw [hlen, List.take_left]

theorem parseEscapeStrLoop_simple (run : Bytes) {b : UInt8} (hu : e ≠ 0x75)
    (h : yamlEscapes.lookup e = some b) :
    parseEscapeStrLoop (n + 1) value (run ++ backslash :: e :: it) (backslash :: e :: it) =
      parseEscapeStrLoop n (value ++ run ++ [b]) it it := by
  rw [parseEscapeStrLoop, if_pos rfl]
  dsimp only
  rw [if_neg hu, h, take_run]

theorem parseEscapeStrLoop_unicode (run : Bytes) :
    parseEscapeStrLoop (n + 1) value (run ++ backslash :: 0x75 :: it) (backslash :: 0x75 :: it) =
      if it.length < 4 then raise "Expected 4 hexadecimal digits"
      else (parseUnicodeHex4 it).bind fun p =>
        parseEscapeStrLoop n (value ++ run ++ encodeUtf8 p.1) p.2 p.2 := by
  rw [parseEscapeStrLoop, if_pos rfl]
  dsimp only
  rw [if_pos rfl, take_run]

/-- A text is a plain character, a backslash or an escape, and a shorter text. -/
private theorem cases_text (it : Bytes) :
    it = [] ∨ (∃ c it', it = c :: it' ∧ c ≠ backslash) ∨
      (∃ it', it = backslash :: it' ∧ KeepsBackslash it') ∨
      (∃ e b it', it = backslash :: e :: it' ∧ e ≠ 0x75 ∧ yamlEscapes.lookup e = some b) ∨
      ∃ it', it = backslash :: 0x75 :: it' := by
  cases it with
  | nil => exact .inl rfl
  | cons c it =>
    by_cases hc : c = backslash
    · subst hc
      cases it with
      | nil => exact .inr (.inr (.inl ⟨[], rfl, nofun⟩))
      | cons e it =>
        by_cases hu : e = 0x75
        · exact .inr (.inr (.inr (.inr ⟨it, by rw [hu]⟩)))
        cases hlookup : yamlEscapes.lookup e with
        | some b => exact .inr (.inr (.inr (.inl ⟨e, b, it, rfl, hu, hlookup⟩)))
        | none =>
          refine .inr (.inr (.inl ⟨e :: it, rfl, fun e' he' => ?_⟩))
          obtain rfl := Option.some.inj he'
          exact ⟨hu, hlookup⟩
    · exact .inr (.inl ⟨c, it, rfl, hc⟩)

/-- What is read does not depend on what was read before. -/
theorem parseEscapeStrLoop_eq (hn : it.length ≤ n) (value run : Bytes) :
    parseEscapeStrLoop n value (run ++ it) it = (parseEscapeStr it).map (value ++ run ++ ·) := by
  induction hlen : it.length using Nat.strongRecOn generalizing it n value run with
  | ind k ih =>
    subst hlen
    -- both sides take the same step, and the induction takes both to the shorter text
    have hstep {it' : Bytes} (hlt : it'.length < it.length) {m : ℕ} (hm : it'.length ≤ m)
        (value run : Bytes) : parseEscapeStrLoop m value (run ++ it') it' =
          (parseEscapeStr it').map (value ++ run ++ ·) := ih _ hlt hm value run rfl
    have hmap (r : Except Fault Bytes) (u v w : Bytes) (h : u ++ v = value ++ run ++ w) :
        r.map (u ++ v ++ ·) = (r.map (w ++ ·)).map (value ++ run ++ ·) := by
      rw [h]
      cases r with
      | error e => rfl
      | ok s => exact congrArg Except.ok (List.append_assoc _ w s)
    obtain rfl | ⟨c, it, rfl, hc⟩ | ⟨it, rfl, hkeep⟩ | ⟨e, b, it, rfl, hu, hb⟩ | ⟨it, rfl⟩ :=
      cases_text it
    · rw [List.append_nil, parseEscapeStrLoop, parseEscapeStr, parseEscapeStrLoop]
      exact congrArg Except.ok (List.append_nil _).symm
    · obtain ⟨n, rfl⟩ := Nat.exists_eq_add_of_le' (Nat.one_le_of_lt hn)
      have hlt : it.length < (c :: it).length := Nat.lt_succ_self _
      have hleft := hstep hlt (Nat.le_of_succ_le_succ hn) value (run ++ [c])
      have hright : parseEscapeStrLoop it.length [] (c :: it) it =
          (parseEscapeStr it).map ([c] ++ ·) := hstep hlt le_rfl [] [c]
      rw [List.append_assoc, List.singleton_append] at hleft
      rw [parseEscapeStr, List.length_cons, parseEscapeStrLoop_cons hc, parseEscapeStrLoop_cons hc,
        hleft, hright]
      exact hmap _ value (run ++ [c]) [c] (List.append_assoc _ _ _).symm
    · obtain ⟨n, rfl⟩ := Nat.exists_eq_add_of_le' (Nat.one_le_of_lt hn)
      have hlt : it.length < (backslash :: it).length := Nat.lt_succ_self _
      have hleft := hstep hlt (Nat.le_of_succ_le_succ hn) value (run ++ [backslash])
      have hright : parseEscapeStrLoop it.length [] (backslash :: it) it =
          (parseEscapeStr it).map ([backslash] ++ ·) := hstep hlt le_rfl [] [backslash]
      rw [List.append_assoc, List.singleton_append] at hleft
      rw [parseEscapeStr, List.length_cons, parseEscapeStrLoop_backslash hkeep,
        parseEscapeStrLoop_backslash hkeep, hleft, hright]
      exact hmap _ value (run ++ [backslash]) [backslash] (List.append_assoc _ _ _).symm
    · obtain ⟨n, rfl⟩ := Nat.exists_eq_add_of_le' (Nat.one_le_of_lt hn)
      have hlt : it.length < (backslash :: e :: it).length := by
        rw [List.length_cons, List.length_cons]
        omega
      have hn' : it.length ≤ n := (Nat.le_succ _).trans (Nat.le_of_succ_le_succ hn)
      have hleft : parseEscapeStrLoop n (value ++ run ++ [b]) it it =
          (parseEscapeStr it).map ((value ++ run ++ [b]) ++ [] ++ ·) := hstep hlt hn' _ []
      have hright : parseEscapeStr (backslash :: e :: it) = (parseEscapeStr it).map ([b] ++ ·) :=
        (parseEscapeStrLoop_simple [] hu hb).trans (hstep hlt (Nat.le_succ _) [b] [])
      rw [parseEscapeStrLoop_simple run hu hb, hleft, hright]
      exact hmap _ _ [] [b] (List.append_nil _)
    · obtain ⟨n, rfl⟩ := Nat.exists_eq_add_of_le' (Nat.one_le_of_lt hn)
      have hright : parseEscapeStr (backslash :: 0x75 :: it) =
          if it.length < 4 then raise "Expected 4 hexadecimal digits"
          else (parseUnicodeHex4 it).bind fun p =>
            parseEscapeStrLoop (0x75 :: it).length (encodeUtf8 p.1) p.2 p.2 :=
        parseEscapeStrLoop_unicode []
      rw [parseEscapeStrLoop_unicode, hright]
      split
      · rfl
      cases hhex : parseUnicodeHex4 it with
      | error e => rfl
      | ok p =>
        have hrest : p.2.length ≤ it.length := by
          rw [parseHexDigits_rest hhex, List.length_drop]
          exact Nat.sub_le _ _
        have hlt : p.2.length < (backslash :: 0x75 :: it).length := by
          rw [List.length_cons, List.length_cons]
          omega
        have hleft : parseEscapeStrLoop n (value ++ run ++ encodeUtf8 p.1) p.2 p.2 =
            (parseEscapeStr p.2).map ((value ++ run ++ encodeUtf8 p.1) ++ [] ++ ·) :=
          hstep hlt (hrest.trans ((Nat.le_succ _).trans (Nat.le_of_succ_le_succ hn))) _ []
        have hright : parseEscapeStrLoop (0x75 :: it).length (encodeUtf8 p.1) p.2 p.2 =
            (parseEscapeStr p.2).map (encodeUtf8 p.1 ++ ·) :=
          (hstep hlt (hrest.trans (Nat.le_succ _)) _ []).trans (by rw [List.append_nil])
        change parseEscapeStrLoop n (value ++ run ++ encodeUtf8 p.1) p.2 p.2 = (parseEscapeStrLoop
          (0x75 :: it).length (encodeUtf8 p.1) p.2 p.2).map (value ++ run ++ ·)
        rw [hleft, hright]
        exact hmap _ _ [] _ (List.append_nil _)

/-! One piece after the other. -/

theorem parseEscapeStr_nil : parseEscapeStr [] = .ok [] := rfl

theorem parseEscapeStr_cons (hc : c ≠ backslash) (it : Bytes) :
    parseEscapeStr (c :: it) = (parseEscapeStr it).map (c :: ·) :=
  (parseEscapeStrLoop_cons hc _).trans (parseEscapeStrLoop_eq le_rfl [] [c])

theorem parseEscapeStr_backslash (h : KeepsBackslash it) :
    parseEscapeStr (backslash :: it) = (parseEscapeStr it).map (backslash :: ·) :=
  (parseEscapeStrLoop_backslash h _).trans (parseEscapeStrLoop_eq le_rfl [] [backslash])

theorem parseEscapeStr_simple {b : UInt8} (hu : e ≠ 0x75) (h : yamlEscapes.lookup e = some b)
    (it : Bytes) : parseEscapeStr (backslash :: e :: it) = (parseEscapeStr it).map (b :: ·) :=
  (parseEscapeStrLoop_simple [] hu h).trans
    (parseEscapeStrLoop_eq (Nat.le_succ _) [b] [])

theorem parseEscapeStr_unicode (it : Bytes) :
    parseEscapeStr (backslash :: 0x75 :: it) =
      if it.length < 4 then raise "Expected 4 hexadecimal digits"
      else (parseUnicodeHex4 it).bind fun p => (parseEscapeStr p.2).map (encodeUtf8 p.1 ++ ·) := by
  refine (parseEscapeStrLoop_unicode []).trans ?_
  split
  · rfl
  cases hhex : parseUnicodeHex4 it with
  | error e => rfl
  | ok p =>
    have hrest : p.2.length ≤ (0x75 :: it).length := by
      rw [parseHexDigits_rest hhex, List.length_drop, List.length_cons]
      omega
    exact (parseEscapeStrLoop_eq hrest (encodeUtf8 p.1) []).trans (by rw [List.append_nil]; rfl)

theorem parseEscapeStr_hex4 {v : ℕ} (hv : v < 0x10000) (it : Bytes) :
    parseEscapeStr (unicodeEscape v ++ it) = (parseEscapeStr it).map (encodeUtf8 v ++ ·) := by
  refine (parseEscapeStr_unicode (hex4 v ++ it)).trans ?_
  have hlen : ¬ (hex4 v ++ it).length < 4 := by
    rw [List.length_append, hex4]
    simp only [List.length_cons, List.length_nil]
    omega
  rw [if_neg hlen, parseUnicodeHex4_append hv]
  rfl

/-! ### Characters -/

/-- The characters that come back by themselves. -/
def YamlKeeps (c : Char) : Prop := c ≠ '"' ∧ c ≠ '\\' ∧ c.toNat ≤ 0xFFFF

instance (c : Char) : Decidable (YamlKeeps c) := by
  unfold YamlKeeps
  infer_instance

/-- A character is written as an escape, or as a byte that is none of the special ones. -/
theorem writtenAs_cases (c : Char) :
    (∃ w, writtenAs c = backslash :: w) ∨
      ∃ b, writtenAs c = [b] ∧ String.utf8EncodeChar c = [b] ∧ b ≠ backslash ∧ b ≠ quote := by
  by_cases hc : c.toNat < 0x80
  · rw [utf8EncodeChar_of_lt hc]
    simp only [writtenAs, if_pos hc]
    generalize UInt8.ofNat c.toNat = b
    by_cases hu : escape b = 0x75
    · rw [if_pos hu]
      exact .inl ⟨_, rfl⟩
    · rw [if_neg hu]
      by_cases hne : escape b ≠ 0
      · rw [if_pos hne]
        exact .inl ⟨_, rfl⟩
      · rw [if_neg hne]
        refine .inr ⟨b, rfl, rfl, ?_, ?_⟩ <;> rintro rfl <;> exact hne (by decide)
  · rw [writtenAs, if_neg hc]
    split <;> exact .inl ⟨_, rfl⟩

/-- What is written for a character that comes back is read as the character. -/
theorem parseEscapeStr_writtenAs {c : Char} (hc : YamlKeeps c) (it : Bytes) :
    parseEscapeStr (writtenAs c ++ it) =
      (parseEscapeStr it).map (String.utf8EncodeChar c ++ ·) := by
  obtain ⟨hquote, hback, hplane⟩ := hc
  have hunicode (h : writtenAs c = unicodeEscape c.toNat) : parseEscapeStr (writtenAs c ++ it) =
      (parseEscapeStr it).map (String.utf8EncodeChar c ++ ·) := by
    rw [h, parseEscapeStr_hex4 (by omega), encodeUtf8_toNat]
  by_cases hlow : c.toNat < 0x80
  · have hne {d : Char} (hd : c ≠ d) : c.toNat ≠ d.toNat := fun h => hd (Char.toNat_inj.mp h)
    have hq : c.toNat ≠ 0x22 := hne hquote
    have hb : c.toNat ≠ 0x5C := hne hback
    by_cases hu : escape (UInt8.ofNat c.toNat) = 0x75
    · exact hunicode (by simp only [writtenAs, if_pos hlow, if_pos hu])
    rw [utf8EncodeChar_of_lt hlow]
    simp only [writtenAs, if_pos hlow, if_neg hu]
    generalize c.toNat = v at hlow hq hb hu
    -- the escapes of one character are known to the reader
    have htable : ∀ v < 0x80, v = 0x22 ∨ v = 0x5C ∨ escape (UInt8.ofNat v) = 0x75 ∨
        escape (UInt8.ofNat v) = 0 ∨
          yamlEscapes.lookup (escape (UInt8.ofNat v)) = some (UInt8.ofNat v) := by decide +kernel
    have hplain : ∀ v < 0x80, v ≠ 0x5C → UInt8.ofNat v ≠ backslash := by decide +kernel
    by_cases hne : escape (UInt8.ofNat v) ≠ 0
    · rw [if_pos hne]
      have hlookup := (((htable v hlow).resolve_left hq).resolve_left hb).resolve_left hu
      exact parseEscapeStr_simple hu (hlookup.resolve_left hne) it
    · rw [if_neg hne]
      exact parseEscapeStr_cons (hplain v hlow hb) it
  · exact hunicode (by rw [writtenAs, if_neg hlow, if_pos hplane])

/-- A text of such characters is read as it is. -/
theorem parseEscapeStr_flatMap {cs : List Char} (h : ∀ c ∈ cs, YamlKeeps c) (it : Bytes) :
    parseEscapeStr (cs.flatMap writtenAs ++ it) = (parseEscapeStr it).map (utf8 cs ++ ·) := by
  induction cs with
  | nil =>
    cases hit : parseEscapeStr it with
    | error e => exact hit
    | ok s => exact hit
  | cons c cs ih =>
    rw [List.flatMap_cons, List.append_assoc, parseEscapeStr_writtenAs (h c List.mem_cons_self),
      ih fun d hd => h d (List.mem_cons_of_mem _ hd)]
    cases parseEscapeStr it with
    | error e => rfl
    | ok s => exact congrArg Except.ok (List.append_assoc _ (utf8 cs) s).symm

end Reader

/-! ### Characters that do not come back -/

section Lost

variable {it o : Bytes} {c : Char} {cs : List Char}

theorem parseHexDigits_succ {n v : ℕ} {p : ℕ × Bytes} (h : parseHexDigits (n + 1) v it = .ok p) :
    ∃ d it' x, it = d :: it' ∧ hexValue d = some x ∧
      parseHexDigits n ((v <<< 4) + x) it' = .ok p := by
  rw [parseHexDigits] at h
  cases it with
  | nil => cases h
  | cons d it' =>
    cases hx : hexValue d with
    | none =>
      rw [List.headD_cons, hx] at h
      cases h
    | some x =>
      rw [List.headD_cons, hx] at h
      exact ⟨d, it', x, rfl, hx, h⟩

theorem hexValue_lt {d : UInt8} {x : ℕ} (h : hexValue d = some x) : x < 16 := by
  rw [hexValue] at h
  split_ifs at h <;> have := Option.some.inj h <;> omega

theorem parseHexDigits_lt {n v : ℕ} {p : ℕ × Bytes} (h : parseHexDigits n v it = .ok p) :
    p.1 < (v + 1) * 16 ^ n := by
  induction n generalizing v it with
  | zero =>
    rw [← Except.ok.inj h, Nat.pow_zero, Nat.mul_one]
    exact Nat.lt_succ_self v
  | succ n ih =>
    obtain ⟨d, it', x, -, hx, h⟩ := parseHexDigits_succ h
    have hlt := ih h
    have hx16 := hexValue_lt hx
    rw [Nat.shiftLeft_eq] at hlt
    calc p.1 < (v * 2 ^ 4 + x + 1) * 16 ^ n := hlt
      _ ≤ ((v + 1) * 16) * 16 ^ n := Nat.mul_le_mul_right _ (by omega)
      _ = (v + 1) * 16 ^ (n + 1) := by rw [Nat.mul_assoc, ← Nat.pow_succ']

/-- The bytes of a code point of the basic plane. -/
theorem encodeUtf8_lt {v : ℕ} (hv : v < 0x10000) : ∀ b ∈ encodeUtf8 v, b.toNat < 0xF0 := by
  have hlow : ∀ x < 128, (UInt8.ofNat x).toNat < 0xF0 := by decide +kernel
  have hlead : ∀ x < 32, (UInt8.ofNat (0xC0 ||| x)).toNat < 0xF0 := by decide +kernel
  have hlead3 : ∀ x < 16, (UInt8.ofNat (0xE0 ||| x)).toNat < 0xF0 := by decide +kernel
  have htail : ∀ x < 64, (UInt8.ofNat (0x80 ||| x)).toNat < 0xF0 := by decide +kernel
  have hand (x m : ℕ) : x &&& m ≤ x := Nat.and_le_left
  have htail' (x : ℕ) : (UInt8.ofNat (0x80 ||| (x &&& 0x3F))).toNat < 0xF0 :=
    htail _ (Nat.lt_succ_of_le Nat.and_le_right)
  have h12 : v >>> 12 < 16 := by rw [Nat.shiftRight_eq_div_pow]; omega
  rw [encodeUtf8]
  split_ifs with h1 h2 h3
  · exact List.forall_mem_singleton.mpr (hlow _ ((hand v 0xFF).trans_lt (Nat.lt_succ_of_le h1)))
  · have h6 : v >>> 6 < 32 := by rw [Nat.shiftRight_eq_div_pow]; omega
    exact List.forall_mem_cons.mpr ⟨hlead _ ((hand _ 0xFF).trans_lt h6),
      List.forall_mem_singleton.mpr (htail' v)⟩
  · exact List.forall_mem_cons.mpr ⟨hlead3 _ ((hand _ 0xFF).trans_lt h12),
      List.forall_mem_cons.mpr ⟨htail' _, List.forall_mem_singleton.mpr (htail' v)⟩⟩
  · omega

theorem mem_of_lookup {e b : UInt8} (h : yamlEscapes.lookup e = some b) : (e, b) ∈ yamlEscapes := by
  obtain ⟨l₁, l₂, hl, -⟩ := List.lookup_eq_some_iff.mp h
  rw [hl]
  exact List.mem_append_right _ List.mem_cons_self

/-- The reader makes no lead of four bytes. -/
theorem parseEscapeStr_lt (hit : ∀ b ∈ it, b.toNat < 0xF0) (h : parseEscapeStr it = .ok o) :
    ∀ b ∈ o, b.toNat < 0xF0 := by
  induction hlen : it.length using Nat.strongRecOn generalizing it o with
  | ind k ih =>
    subst hlen
    have hmap {it' w : Bytes} {r : Except Fault Bytes} (hr : r = parseEscapeStr it')
        (hw : ∀ b ∈ w, b.toNat < 0xF0) (hsub : ∀ b ∈ it', b ∈ it) (hlt : it'.length < it.length)
        (h : r.map (w ++ ·) = .ok o) : ∀ b ∈ o, b.toNat < 0xF0 := by
      subst hr
      cases ho : parseEscapeStr it' with
      | error e =>
        rw [ho] at h
        cases h
      | ok o' =>
        rw [ho] at h
        obtain rfl := Except.ok.inj h
        intro b hb
        rcases List.mem_append.mp hb with hb | hb
        · exact hw b hb
        · exact ih _ hlt (fun b hb => hit b (hsub b hb)) ho rfl b hb
    obtain rfl | ⟨c, it, rfl, hc⟩ | ⟨it, rfl, hkeep⟩ | ⟨e, b, it, rfl, hu, hb⟩ | ⟨it, rfl⟩ :=
      cases_text it
    · rw [← Except.ok.inj h]
      exact fun b hb => nomatch hb
    · rw [parseEscapeStr_cons hc] at h
      exact hmap rfl (w := [c]) (List.forall_mem_singleton.mpr (hit c List.mem_cons_self))
        (fun b hb => List.mem_cons_of_mem _ hb) (Nat.lt_succ_self _) h
    · rw [parseEscapeStr_backslash hkeep] at h
      exact hmap rfl (w := [backslash]) (by decide) (fun b hb => List.mem_cons_of_mem _ hb)
        (Nat.lt_succ_self _) h
    · rw [parseEscapeStr_simple hu hb] at h
      have htable : ∀ p ∈ yamlEscapes, p.2.toNat < 0xF0 :=
        List.forall_iff_forall_mem.mp (by decide)
      refine hmap rfl (w := [b]) (List.forall_mem_singleton.mpr (htable (e, b) ?_))
        (fun b hb => List.mem_cons_of_mem _ (List.mem_cons_of_mem _ hb)) ?_ h
      · exact mem_of_lookup hb
      · rw [List.length_cons, List.length_cons]
        omega
    · rw [parseEscapeStr_unicode] at h
      split at h
      · cases h
      cases hhex : parseUnicodeHex4 it with
      | error e =>
        rw [hhex] at h
        cases h
      | ok p =>
        rw [hhex] at h
        have hrest := parseHexDigits_rest hhex
        refine hmap rfl (encodeUtf8_lt (parseHexDigits_lt hhex)) (fun b hb => ?_) ?_ h
        · rw [hrest] at hb
          exact List.mem_cons_of_mem _ (List.mem_cons_of_mem _ (List.mem_of_mem_drop hb))
        · rw [hrest, List.length_drop, List.length_cons, List.length_cons]
          omega

theorem writtenAs_lt (c : Char) : ∀ b ∈ writtenAs c, b.toNat < 0xF0 := by
  have hescape : ∀ v < 0x80, (UInt8.ofNat v).toNat < 0xF0 ∧
      (escape (UInt8.ofNat v)).toNat < 0xF0 := by decide +kernel
  have hdigit : ∀ d < 16, (hexDigits.getD d 0).toNat < 0xF0 := by decide +kernel
  have hhex (v : ℕ) : (hexDigit v).toNat < 0xF0 := hdigit _ (Nat.lt_succ_of_le Nat.and_le_right)
  have hstart : ∀ b ∈ codes ['\\', 'u'], b.toNat < 0xF0 := by decide
  have hunicode (v : ℕ) : ∀ b ∈ unicodeEscape v, b.toNat < 0xF0 := by
    intro b hb
    rcases List.mem_append.mp hb with hb | hb
    · exact hstart b hb
    · simp only [hex4, List.mem_cons, List.not_mem_nil, or_false] at hb
      rcases hb with rfl | rfl | rfl | rfl <;> exact hhex _
  by_cases hc : c.toNat < 0x80
  · simp only [writtenAs, if_pos hc]
    obtain ⟨hb, he⟩ := hescape c.toNat hc
    split_ifs
    · exact hunicode _
    · exact List.forall_mem_cons.mpr ⟨by decide, List.forall_mem_singleton.mpr he⟩
    · exact List.forall_mem_singleton.mpr hb
  · rw [writtenAs, if_neg hc]
    split_ifs
    · exact hunicode _
    · exact List.forall_mem_append.mpr ⟨hunicode _, hunicode _⟩

/-- A text that comes back has no character behind the basic plane. -/
theorem le_of_parseEscapeStr (h : parseEscapeStr (cs.flatMap writtenAs) = .ok (utf8 cs)) :
    ∀ c ∈ cs, c.toNat ≤ 0xFFFF := by
  refine (forall_mem_utf8_lt_iff cs).mp (parseEscapeStr_lt (fun b hb => ?_) h)
  obtain ⟨c, -, hb⟩ := List.mem_flatMap.mp hb
  exact writtenAs_lt c b hb

/-- A text that is written with a byte in front that is no backslash begins with that byte. -/
theorem exists_of_flatMap_writtenAs {d : UInt8} {w : Bytes} (h : cs.flatMap writtenAs = d :: w)
    (hd : d ≠ backslash) :
    ∃ cs', w = cs'.flatMap writtenAs ∧ utf8 cs = d :: utf8 cs' ∧ ∀ c ∈ cs', c ∈ cs := by
  cases cs with
  | nil => cases h
  | cons c cs =>
    rw [List.flatMap_cons] at h
    obtain ⟨v, hv⟩ | ⟨b, hb, hutf, -, -⟩ := writtenAs_cases c
    · rw [hv] at h
      exact absurd (List.cons.inj h).1.symm hd
    · rw [hb] at h
      obtain ⟨rfl, rfl⟩ := List.cons.inj h
      refine ⟨cs, rfl, ?_, fun c' hc' => List.mem_cons_of_mem _ hc'⟩
      rw [utf8, List.flatMap_cons, hutf]
      rfl

private theorem exists_of_map_cons {r : Except Fault Bytes} {b : UInt8}
    (h : r.map (b :: ·) = .ok o) : ∃ o', r = .ok o' ∧ o = b :: o' := by
  cases r with
  | error e => cases h
  | ok o' => exact ⟨o', rfl, (Except.ok.inj h).symm⟩

private theorem exists_of_map_append {r : Except Fault Bytes} {w : Bytes}
    (h : r.map (w ++ ·) = .ok o) : ∃ o', r = .ok o' ∧ o = w ++ o' := by
  cases r with
  | error e => cases h
  | ok o' => exact ⟨o', rfl, (Except.ok.inj h).symm⟩

theorem keepsBackslash_quote (it : Bytes) : KeepsBackslash (quote :: it) := by
  rintro e ⟨⟩
  decide

theorem keepsBackslash_backslash (it : Bytes) : KeepsBackslash (backslash :: it) := by
  rintro e ⟨⟩
  decide

/-- A quote or a backslash is read with a backslash in front. -/
theorem parseEscapeStr_special (hc : c = '"' ∨ c = '\\') {it : Bytes}
    (h : parseEscapeStr (writtenAs c ++ it) = .ok o) : ∃ o', o = backslash :: o' := by
  have hkeep : ∃ e, writtenAs c = [backslash, e] ∧ KeepsBackslash (e :: it) := by
    rcases hc with rfl | rfl
    · exact ⟨quote, by decide, keepsBackslash_quote it⟩
    · exact ⟨backslash, by decide, keepsBackslash_backslash it⟩
  obtain ⟨e, hwritten, hkeep⟩ := hkeep
  rw [hwritten] at h
  obtain ⟨o', -, ho⟩ := exists_of_map_cons ((parseEscapeStr_backslash hkeep).symm.trans h)
  exact ⟨o', ho⟩

theorem backslash_notMem_utf8EncodeChar (hc : c ≠ '\\') :
    backslash ∉ String.utf8EncodeChar c := by
  have hne : c.toNat ≠ 0x5C := fun h => hc (Char.toNat_inj.mp (h.trans rfl))
  have hval : c.val.toNat = c.toNat := rfl
  have hback : backslash = UInt8.ofNat 0x5C := rfl
  simp only [String.utf8EncodeChar, hval, hback]
  generalize c.toNat = v at hne
  split_ifs <;>
    simp only [List.mem_cons, List.not_mem_nil, or_false, ← UInt8.toNat_inj,
      UInt8.toNat_ofNat'] <;> omega

theorem backslash_notMem_utf8 (h : ∀ c ∈ cs, YamlKeeps c) : backslash ∉ utf8 cs := by
  intro hmem
  obtain ⟨c, hc, hb⟩ := List.mem_flatMap.mp hmem
  exact backslash_notMem_utf8EncodeChar (h c hc).2.1 hb

/-- The first character of a text that does not come back. -/
theorem exists_first_special (hcs : ∀ c ∈ cs, c.toNat ≤ 0xFFFF) (h : ¬ ∀ c ∈ cs, YamlKeeps c) :
    ∃ p x t, cs = p ++ x :: t ∧ (∀ c ∈ p, YamlKeeps c) ∧ (x = '"' ∨ x = '\\') := by
  cases hfind : cs.find? fun c => ¬ YamlKeeps c with
  | none =>
    rw [List.find?_eq_none] at hfind
    exact absurd (fun c hc => by simpa using hfind c hc) h
  | some x =>
    obtain ⟨hx, p, t, rfl, hp⟩ := List.find?_eq_some_iff_append.mp hfind
    refine ⟨p, x, t, rfl, fun c hc => by simpa using hp c hc, ?_⟩
    have hplane := hcs x (List.mem_append_right p List.mem_cons_self)
    have hlost : ¬ YamlKeeps x := of_decide_eq_true hx
    by_contra hnot
    rw [not_or] at hnot
    exact hlost ⟨hnot.1, hnot.2, hplane⟩

/-- A text is not read as itself behind other characters. -/
theorem not_parseEscapeStr_shifted (hcs : ∀ c ∈ cs, c.toNat ≤ 0xFFFF) {ds : Bytes} (hne : ds ≠ [])
    (hds : backslash ∉ ds) : parseEscapeStr (cs.flatMap writtenAs) ≠ .ok (ds ++ utf8 cs) := by
  intro h
  have hlen := List.length_pos_iff.mpr hne
  by_cases hall : ∀ c ∈ cs, YamlKeeps c
  · have hread := parseEscapeStr_flatMap hall []
    rw [List.append_nil, h, parseEscapeStr_nil] at hread
    have hlength : (ds ++ utf8 cs).length = (utf8 cs ++ []).length :=
      congrArg List.length (Except.ok.inj hread)
    rw [List.length_append, List.append_nil] at hlength
    omega
  · -- the first character that does not come back leaves a backslash, too far to the front
    obtain ⟨p, x, t, rfl, hp, hx⟩ := exists_first_special hcs hall
    rw [List.flatMap_append, List.flatMap_cons, parseEscapeStr_flatMap hp] at h
    obtain ⟨o, ho, heq⟩ := exists_of_map_append h
    obtain ⟨o', rfl⟩ := parseEscapeStr_special hx ho
    have htake := congrArg (fun l : Bytes => (l.takeWhile fun b => b ≠ backslash).length) heq
    have hplain (w : Bytes) (hw : backslash ∉ w) : ∀ b ∈ w, decide (b ≠ backslash) = true := by
      rintro b hb
      refine decide_eq_true ?_
      rintro rfl
      exact hw hb
    rw [utf8, List.flatMap_append, ← utf8] at htake
    rw [List.takeWhile_append_of_pos (hplain ds hds),
      List.takeWhile_append_of_pos (hplain (utf8 p) (backslash_notMem_utf8 hp)),
      List.takeWhile_append_of_pos (hplain (utf8 p) (backslash_notMem_utf8 hp)),
      List.takeWhile_cons_of_neg (by simp)] at htake
    simp only [List.length_append, List.length_nil] at htake
    omega

/-- A code point that is encoded with a byte of ASCII in front is this byte. -/
theorem encodeUtf8_of_head {v : ℕ} {b : UInt8} {w : Bytes} (hv : v < 0x10000)
    (hb : b.toNat < 0x80) (h : encodeUtf8 v = b :: w) : w = [] := by
  have hlead : ∀ x < 32, 0x80 ≤ (UInt8.ofNat (0xC0 ||| x)).toNat := by decide +kernel
  have hlead3 : ∀ x < 16, 0x80 ≤ (UInt8.ofNat (0xE0 ||| x)).toNat := by decide +kernel
  have hand (x m : ℕ) : x &&& m ≤ x := Nat.and_le_left
  rw [encodeUtf8] at h
  split_ifs at h with h1 h2 h3
  · exact (List.cons.inj h).2.symm
  · have h6 : v >>> 6 < 32 := by rw [Nat.shiftRight_eq_div_pow]; omega
    have hle := hlead _ ((hand (v >>> 6) 0xFF).trans_lt h6)
    rw [(List.cons.inj h).1] at hle
    omega
  · have h12 : v >>> 12 < 16 := by rw [Nat.shiftRight_eq_div_pow]; omega
    have hle := hlead3 _ ((hand (v >>> 12) 0xFF).trans_lt h12)
    rw [(List.cons.inj h).1] at hle
    omega
  · omega

/-- Four digits at the front of what is written for a text. -/
theorem exists_of_parseUnicodeHex4 {p : ℕ × Bytes}
    (h : parseUnicodeHex4 (cs.flatMap writtenAs) = .ok p) :
    ∃ ds cs', p.2 = cs'.flatMap writtenAs ∧ utf8 cs = ds ++ utf8 cs' ∧ ds ≠ [] ∧
      backslash ∉ ds ∧ ∀ c ∈ cs', c ∈ cs := by
  have hdigit {d : UInt8} {x : ℕ} (hx : hexValue d = some x) : d ≠ backslash := by
    rintro rfl
    have hnone : hexValue backslash = none := by decide
    rw [hnone] at hx
    cases hx
  obtain ⟨d₀, it₀, x₀, h₀, hx₀, h⟩ := parseHexDigits_succ h
  obtain ⟨d₁, it₁, x₁, rfl, hx₁, h⟩ := parseHexDigits_succ h
  obtain ⟨d₂, it₂, x₂, rfl, hx₂, h⟩ := parseHexDigits_succ h
  obtain ⟨d₃, it₃, x₃, rfl, hx₃, h⟩ := parseHexDigits_succ h
  obtain ⟨cs₀, hw₀, hutf₀, hsub₀⟩ := exists_of_flatMap_writtenAs h₀ (hdigit hx₀)
  obtain ⟨cs₁, hw₁, hutf₁, hsub₁⟩ := exists_of_flatMap_writtenAs hw₀.symm (hdigit hx₁)
  obtain ⟨cs₂, hw₂, hutf₂, hsub₂⟩ := exists_of_flatMap_writtenAs hw₁.symm (hdigit hx₂)
  obtain ⟨cs₃, hw₃, hutf₃, hsub₃⟩ := exists_of_flatMap_writtenAs hw₂.symm (hdigit hx₃)
  have hp : p.2 = it₃ := (congrArg Prod.snd (Except.ok.inj h)).symm
  refine ⟨[d₀, d₁, d₂, d₃], cs₃, hp.trans hw₃, ?_, List.cons_ne_nil _ _, ?_, fun c hc => ?_⟩
  · rw [hutf₀, hutf₁, hutf₂, hutf₃]
    rfl
  · simp [(hdigit hx₀).symm, (hdigit hx₁).symm, (hdigit hx₂).symm, (hdigit hx₃).symm]
  · exact hsub₀ c (hsub₁ c (hsub₂ c (hsub₃ c hc)))

/-- Behind a backslash that is read by itself a text is not read as itself, nor with a number of
backslashes less. -/
theorem not_parseEscapeStr_backslash (hcs : ∀ c ∈ cs, c.toNat ≤ 0xFFFF) (k : ℕ)
    (h : parseEscapeStr (backslash :: cs.flatMap writtenAs) = .ok o) :
    List.replicate k backslash ++ o ≠ utf8 cs := by
  induction cs generalizing k o with
  | nil =>
    obtain rfl := Except.ok.inj h
    intro heq
    exact List.append_ne_nil_of_right_ne_nil _ (List.cons_ne_nil _ _) heq
  | cons y t ih =>
    have ht : ∀ c ∈ t, c.toNat ≤ 0xFFFF := fun c hc => hcs c (List.mem_cons_of_mem _ hc)
    by_cases hy : y = '\\'
    · -- one backslash of two is read with the next character
      subst hy
      have hwritten : ('\\' :: t).flatMap writtenAs = backslash :: backslash ::
          t.flatMap writtenAs :=
        rfl
      rw [hwritten, parseEscapeStr_backslash (keepsBackslash_backslash _)] at h
      obtain ⟨o₁, h₁, rfl⟩ := exists_of_map_cons h
      rw [parseEscapeStr_backslash (keepsBackslash_backslash _)] at h₁
      obtain ⟨o₂, h₂, rfl⟩ := exists_of_map_cons h₁
      intro heq
      refine ih ht (k + 1) h₂ ?_
      have hshift (l : Bytes) : List.replicate k backslash ++ backslash :: l =
          backslash :: (List.replicate k backslash ++ l) := by
        rw [← List.cons_append, ← List.replicate_succ, List.replicate_succ', List.append_assoc]
        rfl
      rw [hshift] at heq
      rw [List.replicate_succ, List.cons_append, ← hshift]
      exact (List.cons.inj heq).2
    · obtain ⟨b, w, hutf⟩ := utf8EncodeChar_ne_nil y
      have hb : b ≠ backslash := by
        rintro rfl
        exact backslash_notMem_utf8EncodeChar hy (hutf ▸ List.mem_cons_self)
      have hutf8 : utf8 (y :: t) = b :: (w ++ utf8 t) := by
        rw [utf8, List.flatMap_cons, hutf]
        rfl
      intro heq
      rw [hutf8] at heq
      cases k with
      | succ k => exact hb (List.cons.inj heq).1.symm
      | zero =>
        replace heq : o = b :: (w ++ utf8 t) := heq
        obtain hnil | ⟨c, it, hit, hc⟩ | ⟨it, hit, hkeep⟩ | ⟨e, e', it, hit, hu, he⟩ | ⟨it, hit⟩ :=
          cases_text (backslash :: (y :: t).flatMap writtenAs)
        · cases hnil
        · exact hc (List.cons.inj hit).1.symm
        · rw [(List.cons.inj hit).2, parseEscapeStr_backslash hkeep] at h
          obtain ⟨o', -, rfl⟩ := exists_of_map_cons h
          exact hb (List.cons.inj heq).1.symm
        · -- the character is one that a backslash turns into another
          have htable : ∀ p ∈ yamlEscapes, p.1 ≠ backslash ∧ p.2 ≠ p.1 :=
            List.forall_iff_forall_mem.mp (by decide)
          obtain ⟨hne, hchanged⟩ := htable _ (mem_of_lookup he)
          have hwritten := (List.cons.inj hit).2
          obtain ⟨cs', -, hutf', -⟩ := exists_of_flatMap_writtenAs hwritten hne
          rw [hwritten, parseEscapeStr_simple hu he] at h
          obtain ⟨o', -, rfl⟩ := exists_of_map_cons h
          have hhead := (List.cons.inj heq).1
          exact hchanged (hhead.trans (List.cons.inj (hutf8.symm.trans hutf')).1)
        · -- it is a `'u'`, and the digits behind it are those of a `'u'`
          have hwritten := (List.cons.inj hit).2
          have hu : (0x75 : UInt8) ≠ backslash := by decide
          obtain ⟨cs', hcs', hutf', hsub⟩ := exists_of_flatMap_writtenAs hwritten hu
          rw [hwritten, parseEscapeStr_unicode] at h
          split at h
          · cases h
          cases hhex : parseUnicodeHex4 it with
          | error e =>
            rw [hhex] at h
            cases h
          | ok p =>
            rw [hhex] at h
            obtain ⟨o', ho', rfl⟩ := exists_of_map_append h
            rw [hcs'] at hhex
            obtain ⟨ds, cs'', hp, hds, hne, hback, hsub'⟩ := exists_of_parseUnicodeHex4 hhex
            have heq' : encodeUtf8 p.1 ++ o' = 0x75 :: utf8 cs' :=
              heq.trans (hutf8.symm.trans hutf')
            cases hencode : encodeUtf8 p.1 with
            | nil =>
              rw [encodeUtf8] at hencode
              split_ifs at hencode
            | cons b' w' =>
              rw [hencode] at heq'
              obtain ⟨rfl, hrest⟩ := List.cons.inj heq'
              obtain rfl := encodeUtf8_of_head (parseHexDigits_lt hhex) (by decide) hencode
              have hshifted : o' = ds ++ utf8 cs'' := hds ▸ hrest
              rw [hp, hshifted] at ho'
              exact not_parseEscapeStr_shifted (fun c hc =>
                hcs c (hsub c (hsub' c hc))) hne hback ho'

end Lost

/-! ### The round trip -/

/-- A valid text is written between quotes, and the range of the value is read as the text. -/
def YamlStringRoundTrips (cs : List Char) : Prop :=
  ∃ w, renderYamlString (utf8 cs) = .ok w ∧ yamlParseString w = .ok (utf8 cs)

theorem renderYamlString_utf8 (cs : List Char) :
    renderYamlString (utf8 cs) = .ok (quote :: (cs.flatMap writtenAs ++ [quote])) := by
  rw [renderYamlString, writeStringWithEscape_utf8]
  rfl

theorem yamlParseString_quoted (it : Bytes) :
    yamlParseString (quote :: (it ++ [quote])) = parseEscapeStr it := by
  rw [yamlParseString, if_pos rfl, List.getLast?_concat]
  dsimp only
  rw [if_pos rfl, List.dropLast_concat]

/-- A text comes back exactly if it has no quotes, no backslashes and no characters behind the basic
plane. -/
theorem yamlStringRoundTrips_iff (cs : List Char) :
    YamlStringRoundTrips cs ↔ ∀ c ∈ cs, YamlKeeps c := by
  have hread : YamlStringRoundTrips cs ↔ parseEscapeStr (cs.flatMap writtenAs) = .ok (utf8 cs) := by
    rw [← yamlParseString_quoted]
    constructor
    · rintro ⟨w, hw, h⟩
      rw [renderYamlString_utf8] at hw
      exact Except.ok.inj hw ▸ h
    · intro h
      exact ⟨_, renderYamlString_utf8 cs, h⟩
  rw [hread]
  constructor
  · intro h
    have hcs := le_of_parseEscapeStr h
    by_contra hall
    obtain ⟨p, x, t, rfl, hp, hx⟩ := exists_first_special hcs hall
    rw [List.flatMap_append, List.flatMap_cons, parseEscapeStr_flatMap hp] at h
    obtain ⟨o, ho, heq⟩ := exists_of_map_append h
    rw [utf8, List.flatMap_append, ← utf8, List.append_cancel_left_eq] at heq
    obtain ⟨o', rfl⟩ := parseEscapeStr_special hx ho
    rcases hx with rfl | rfl
    · -- a quote has a backslash in front now
      have hutf : ('"' :: t).flatMap String.utf8EncodeChar = quote :: utf8 t := rfl
      rw [hutf] at heq
      exact absurd (List.cons.inj heq).1 (by decide)
    · have hwritten : writtenAs '\\' ++ t.flatMap writtenAs =
          backslash :: backslash :: t.flatMap writtenAs := rfl
      rw [hwritten, parseEscapeStr_backslash (keepsBackslash_backslash _)] at ho
      obtain ⟨o'', ho'', hcons⟩ := exists_of_map_cons ho
      have ht : ∀ c ∈ t, c.toNat ≤ 0xFFFF := fun c hc =>
        hcs c (List.mem_append_right p (List.mem_cons_of_mem _ hc))
      have hutf : ('\\' :: t).flatMap String.utf8EncodeChar = backslash :: utf8 t := rfl
      rw [hcons, hutf] at heq
      exact not_parseEscapeStr_backslash ht 0 ho'' (List.cons.inj heq).2.symm
  · intro h
    have hflat := parseEscapeStr_flatMap h []
    rw [List.append_nil, parseEscapeStr_nil] at hflat
    exact hflat.trans (congrArg Except.ok (List.append_nil _))

/-- A backslash and an `'n'` come back as a backslash and a line feed. -/
theorem not_yamlStringRoundTrips_backslashN : ¬ YamlStringRoundTrips ['\\', 'n'] := by
  rintro ⟨w, hw, hread⟩
  have hwrite : renderYamlString (utf8 ['\\', 'n']) =
      .ok (codes ['"', '\\', '\\', 'n', '"']) := by decide +kernel
  rw [hwrite] at hw
  obtain rfl := Except.ok.inj hw
  revert hread
  decide +kernel

end Yalantinglibs.Iguana
