import Yalantinglibs.Data.TextCursor
import Yalantinglibs.Iguana.JsonString

/-!
# Views of JSON strings

A `std::string_view`, the name of an enumerator and, if it has no escapes, the key of an object are
not decoded: `from_json_impl` and `get_key` of `iguana/json_reader.hpp` take the text between the
quotes. The one looks for a quote that no backslash precedes, the other for the first quote or
backslash.

## Main definitions

* `JsonChar` — a character of a string token, or an escape
* `fromJsonView`, `fromJsonEnum`, `getKey` — the readers
* `keyOf` — the key of a string

## Main results

* `fromJsonString_token` — the decoding reader takes a token off
* `fromJsonView_token_iff` — the view does exactly if the token does not end in a backslash
* `getKey_eq` — a key is taken off
-/

set_option autoImplicit false

namespace Yalantinglibs.Iguana

open ByteCodec ByteSearch EscapedText

/-! ### Tokens -/

/-- The characters that may follow a backslash by themselves. -/
def simpleEscapes : Bytes := codes ['"', '\\', '/', 'b', 'f', 'n', 'r', 't']

/-- A character of a string token: one that stands for itself, or an escape. -/
inductive JsonChar where
  | plain (b : UInt8) (h : isEscapeOrQoute b = false)
  | escaped (c : UInt8) (h : c ∈ simpleEscapes)
  | unicode (d₀ d₁ d₂ d₃ : UInt8) (h : ∀ d ∈ [d₀, d₁, d₂, d₃], (hexValue d).isSome)

/-- How a character is written. -/
def JsonChar.raw : JsonChar → Bytes
  | .plain b _ => [b]
  | .escaped c _ => [backslash, c]
  | .unicode d₀ d₁ d₂ d₃ _ => [backslash, 0x75, d₀, d₁, d₂, d₃]

/-- The character that an escape of one stands for. -/
def unescape (c : UInt8) : UInt8 :=
  if c = 0x6E then 0x0A
  else if c = 0x74 then 0x09
  else if c = 0x72 then 0x0D
  else if c = 0x62 then 0x08
  else if c = 0x66 then 0x0C
  else c

/-- The number that four digits stand for. -/
def hexOf (ds : Bytes) : ℕ := ds.foldl (fun v d => (v <<< 4) + (hexValue d).getD 0) 0

/-- What a character stands for. -/
def JsonChar.decoded : JsonChar → Bytes
  | .plain b _ => [b]
  | .escaped c _ => [unescape c]
  | .unicode d₀ d₁ d₂ d₃ _ => encodeUtf8 (hexOf [d₀, d₁, d₂, d₃])

/-- The text of a token between its quotes. -/
def rawOf (cs : List JsonChar) : Bytes := cs.flatMap JsonChar.raw

/-! ### The readers -/

/-- `skip_till_qoute`. -/
def skipTillQoute (it : Bytes) : Except Fault Bytes :=
  match scan (hasByteOf quote) (fun c => c = quote) it with
  | some it => .ok it
  | none => raise "Expected \""

/-- The loop of `from_json_impl` for a view that begins at `start`. -/
def fromJsonViewLoop (start : Bytes) : ℕ → TextCursor → Except Fault (Bytes × TextCursor)
  | n, cur =>
    if cur.it = [] then raise "Expected \""
    else
      match n with
      | 0 => .error .tooDeep
      | n + 1 =>
        (skipTillQoute cur.it).bind fun it =>
          let cur := cur.advance it
          if cur.prev ≠ backslash then
            .ok (start.take (start.length - cur.it.length), cur.next)
          else fromJsonViewLoop start n cur.next

/-- `from_json_impl` for a view, behind the opening quote if `skip` holds. -/
def fromJsonView (skip : Bool) (cur : TextCursor) : Except Fault (Bytes × TextCursor) :=
  (if skip then .ok cur
    else (skipWs cur.it).bind fun it => (matchChars [quote] it).map cur.advance).bind fun cur =>
      fromJsonViewLoop cur.it cur.it.length cur

/-- `from_json_impl` for an enumeration with names. -/
def fromJsonEnum {ε : Type} (strToEnum : Bytes → Option ε) (cur : TextCursor) :
    Except Fault (ε × TextCursor) :=
  (fromJsonView false cur).bind fun p =>
    match strToEnum p.1 with
    | some value => .ok (value, p.2)
    | none =>
      raise (String.ofList (p.1.map fun c => Char.ofNat c.toNat) ++
        " missing corresponding value in enum_value")

/-- The code of `'@'`. -/
def atSign : UInt8 := 0x40

/-- `get_key`. -/
def getKey (it : Bytes) : Parsed Bytes :=
  ((skipWs it).bind (matchChars [quote])).bind fun start =>
    (skipTillEscapeOrQoute start).bind fun stop =>
      if stop.head? = some backslash then fromJsonString true start
      else
        let key := start.take (start.length - stop.length)
        .ok (if key.head? = some atSign then key.tail else key, stop.tail)

/-! ### The decoding reader -/

section Decoding

variable {rest : Bytes}

theorem parseEscape_simple {c : UInt8} (hc : c ∈ simpleEscapes) (value it : Bytes) :
    parseEscape value (c :: it) = .ok (value ++ [unescape c], it) := by
  have hu : c ≠ 0x75 := by
    rintro rfl
    exact absurd hc (by decide)
  rw [parseEscape, if_neg hu, unescape]
  split_ifs <;> rfl

theorem parseHexDigits_cons {n v : ℕ} {d : UInt8} (hd : (hexValue d).isSome) (it : Bytes) :
    parseHexDigits (n + 1) v (d :: it) = parseHexDigits n ((v <<< 4) + (hexValue d).getD 0) it := by
  obtain ⟨x, hx⟩ := Option.isSome_iff_exists.mp hd
  rw [parseHexDigits, List.headD_cons, hx]
  rfl

theorem parseEscape_hex {d₀ d₁ d₂ d₃ : UInt8} (h : ∀ d ∈ [d₀, d₁, d₂, d₃], (hexValue d).isSome)
    (hrest : rest ≠ []) (value : Bytes) :
    parseEscape value (0x75 :: d₀ :: d₁ :: d₂ :: d₃ :: rest) =
      .ok (value ++ encodeUtf8 (hexOf [d₀, d₁, d₂, d₃]), rest) := by
  have hlen : ¬ (d₀ :: d₁ :: d₂ :: d₃ :: rest).length ≤ 4 := by
    have := List.length_pos_iff.mpr hrest
    simp only [List.length_cons]
    omega
  simp only [List.forall_mem_cons] at h
  obtain ⟨h₀, h₁, h₂, h₃, -⟩ := h
  rw [parseEscape, if_pos rfl, if_neg hlen, parseUnicodeHex4, parseHexDigits_cons h₀,
    parseHexDigits_cons h₁, parseHexDigits_cons h₂, parseHexDigits_cons h₃]
  rfl

/-- An escape is taken off by the loop. -/
theorem decodes_of_parseEscape {e : UInt8} {it out tail : Bytes} (htail : tail ≠ [])
    (he : ∀ value rest, rest ≠ [] →
      parseEscape value (e :: (it ++ rest)) = .ok (value ++ out, rest)) :
    Decodes fromJsonChars (isEscapeOrQoute · = false) tail ⟨backslash :: e :: it, out⟩ := by
  refine .inr fun n m value p rest hp hm => ?_
  dsimp only [List.length_cons] at hm
  obtain ⟨m, rfl⟩ := Nat.exists_eq_add_of_le' (show 1 ≤ m by omega)
  refine ⟨m, by omega, ?_⟩
  exact fromJsonChars_escape m value hp fun value => he value _ (by simp [htail])

theorem JsonChar.decodes (c : JsonChar) {tail : Bytes} (htail : tail ≠ []) :
    Decodes fromJsonChars (isEscapeOrQoute · = false) tail ⟨c.raw, c.decoded⟩ := by
  cases c with
  | plain b h => exact .inl ⟨b, rfl, h⟩
  | escaped c h => exact decodes_of_parseEscape htail fun value rest _ =>
      parseEscape_simple h value rest
  | unicode d₀ d₁ d₂ d₃ h =>
    exact decodes_of_parseEscape htail fun value rest hrest => parseEscape_hex h hrest value

/-- The decoding reader takes a token off, up to behind its closing quote. -/
theorem fromJsonString_token (cs : List JsonChar) (rest : Bytes) :
    fromJsonString true (rawOf cs ++ quote :: rest) = .ok (cs.flatMap JsonChar.decoded, rest) := by
  have hdecodes : ∀ u ∈ cs.map fun c => Piece.mk c.raw c.decoded,
      Decodes fromJsonChars (isEscapeOrQoute · = false) (quote :: rest) u := by
    intro u hu
    obtain ⟨c, -, rfl⟩ := List.mem_map.mp hu
    exact c.decodes (by simp)
  have hpieces := fromJsonChars_pieces hdecodes
  rw [List.flatMap_map, List.flatMap_map] at hpieces
  exact hpieces

end Decoding

/-! ### The view -/

section View

variable {before bs it start : Bytes} {n : ℕ}

theorem skipTillQoute_append (h : quote ∉ bs) (it : Bytes) :
    skipTillQoute (bs ++ quote :: it) = .ok (quote :: it) := by
  have hplain : ∀ b ∈ bs, decide (b = quote) = false := by
    intro b hb
    refine decide_eq_false ?_
    rintro rfl
    exact h hb
  rw [skipTillQoute, scan_eq fun chunk hlen => marks_hasByteOf quote hlen,
    scanTail_append hplain (decide_eq_true rfl)]

/-- One round: the next quote ends the view unless a backslash precedes it. -/
theorem fromJsonViewLoop_append (h : quote ∉ bs) :
    fromJsonViewLoop start (n + 1) ⟨before, bs ++ quote :: it⟩ =
      if (bs.reverse ++ before).headD 0 ≠ backslash then
        .ok (start.take (start.length - (quote :: it).length),
          ⟨quote :: (bs.reverse ++ before), it⟩)
      else fromJsonViewLoop start n ⟨quote :: (bs.reverse ++ before), it⟩ := by
  rw [fromJsonViewLoop, if_neg (by simp), skipTillQoute_append h]
  dsimp only [Except.bind]
  rw [TextCursor.advance_append]
  rfl

/-- In a token every quote follows a backslash. -/
def QuotesEscaped (w : Bytes) : Prop := ∀ p s, w = p ++ quote :: s → p.getLast? = some backslash

theorem QuotesEscaped.of_append {run w : Bytes} (h : QuotesEscaped (run ++ quote :: w)) :
    QuotesEscaped w := by
  rintro p s rfl
  have hlast := h (run ++ quote :: p) s (by simp)
  rw [List.getLast?_append, List.getLast?_cons] at hlast
  cases hp : p.getLast? with
  | none =>
    rw [hp] at hlast
    exact absurd (Option.some.inj hlast) (by decide)
  | some b =>
    rw [hp] at hlast
    exact hlast

/-- What precedes the place behind a text. -/
private theorem headD_reverse_append (hbefore : before.headD 0 ≠ backslash) (w : Bytes) :
    (w.reverse ++ before).headD 0 ≠ backslash ↔ w.getLast? ≠ some backslash := by
  rw [List.getLast?_eq_head?_reverse]
  cases w.reverse with
  | nil => exact iff_of_true hbefore nofun
  | cons b w => simp

/-- A text whose quotes all follow backslashes ends the view at the quote behind it if it does not
end in a backslash itself; otherwise the view goes on behind that quote. -/
theorem exists_fromJsonViewLoop (start it : Bytes) {w : Bytes} (hw : QuotesEscaped w)
    (hbefore : before.headD 0 ≠ backslash) (hn : w.length < n) :
    ∃ m, fromJsonViewLoop start n ⟨before, w ++ quote :: it⟩ =
      if w.getLast? ≠ some backslash then
        .ok (start.take (start.length - (quote :: it).length), ⟨quote :: (w.reverse ++ before), it⟩)
      else fromJsonViewLoop start m ⟨quote :: (w.reverse ++ before), it⟩ := by
  induction hlen : w.length using Nat.strongRecOn generalizing w before n with
  | ind k ih =>
    obtain ⟨n, rfl⟩ := Nat.exists_eq_add_of_le' (show 1 ≤ n by omega)
    by_cases hquote : quote ∈ w
    · obtain ⟨run, w', rfl, hrun⟩ := List.eq_append_cons_of_mem hquote
      -- a backslash precedes the first quote
      have hlast : ¬ (run.reverse ++ before).headD 0 ≠ backslash := by
        rw [headD_reverse_append hbefore, not_not]
        exact hw run w' rfl
      rw [List.length_append, List.length_cons] at hlen hn
      have hnext : (quote :: (run.reverse ++ before)).headD 0 ≠ backslash :=
        show quote ≠ backslash by decide
      have hw' : w'.length < n := by omega
      obtain ⟨m, hm⟩ := ih w'.length (by omega) hw.of_append hnext hw' rfl
      refine ⟨m, ?_⟩
      rw [List.append_assoc, List.cons_append, fromJsonViewLoop_append hrun, if_neg hlast, hm]
      have hend : (run ++ quote :: w').getLast? ≠ some backslash ↔
          w'.getLast? ≠ some backslash := by
        rw [List.getLast?_append, List.getLast?_cons]
        cases w'.getLast? with
        | none => simp; decide
        | some b => simp
      simp only [hend, List.reverse_append, List.reverse_cons, List.append_assoc, List.cons_append,
        List.nil_append]
    · refine ⟨n, ?_⟩
      rw [fromJsonViewLoop_append hquote]
      simp only [headD_reverse_append hbefore]

theorem skipTillQoute_of_notMem (h : quote ∉ it) : ∃ e, skipTillQoute it = .error e := by
  have hplain : ∀ b ∈ it, decide (b = quote) = false := by
    intro b hb
    refine decide_eq_false ?_
    rintro rfl
    exact h hb
  rw [skipTillQoute, scan_eq fun chunk hlen => marks_hasByteOf quote hlen, scanTail_eq_none hplain]
  exact ⟨_, rfl⟩

/-- The view ends behind a quote that is still before it. -/
theorem fromJsonViewLoop_length_lt {v : Bytes} {cur cur' : TextCursor}
    (h : fromJsonViewLoop start n cur = .ok (v, cur')) : cur'.it.length < cur.it.length := by
  induction n generalizing cur with
  | zero =>
    rw [fromJsonViewLoop] at h
    split at h <;> cases h
  | succ n ih =>
    obtain ⟨before, it⟩ := cur
    by_cases hquote : quote ∈ it
    · obtain ⟨run, rest, rfl, hrun⟩ := List.eq_append_cons_of_mem hquote
      rw [fromJsonViewLoop_append hrun] at h
      have hrest : rest.length < (run ++ quote :: rest).length := by
        rw [List.length_append, List.length_cons]
        omega
      split at h
      · cases h
        exact hrest
      · exact (ih h).trans hrest
    · obtain ⟨e, he⟩ := skipTillQoute_of_notMem hquote
      rw [fromJsonViewLoop, he] at h
      split at h <;> cases h

end View

/-! ### Tokens -/

section Tokens

variable (cs : List JsonChar)

theorem QuotesEscaped.append {u w : Bytes} (hu : QuotesEscaped u) (hw : QuotesEscaped w) :
    QuotesEscaped (u ++ w) := by
  intro p s h
  rcases List.append_eq_append_iff.mp h with ⟨t, rfl, ht⟩ | ⟨t, rfl, ht⟩
  · have hlast := hw t s ht
    rw [List.getLast?_append, hlast]
    rfl
  · cases t with
    | nil => exact absurd (hw [] s ht.symm) nofun
    | cons b t =>
      obtain ⟨rfl, -⟩ := List.cons.inj ht
      exact hu p t rfl

theorem quotesEscaped_raw (c : JsonChar) : QuotesEscaped c.raw := by
  rintro p s h
  have hmem : quote ∈ c.raw := h ▸ List.mem_append_right p List.mem_cons_self
  cases c with
  | plain b hb =>
    obtain rfl := List.mem_singleton.mp hmem
    exact absurd hb (by decide)
  | escaped c hc =>
    cases p with
    | nil => exact absurd (List.cons.inj h).1 (by decide)
    | cons b p =>
      obtain ⟨rfl, htail⟩ := List.cons.inj h
      cases p with
      | nil => rfl
      | cons d p => simp at htail
  | unicode d₀ d₁ d₂ d₃ hd =>
    -- a quote is no digit
    have hquote : quote ∈ [d₀, d₁, d₂, d₃] :=
      List.mem_of_ne_of_mem (by decide) (List.mem_of_ne_of_mem (by decide) hmem)
    exact absurd (hd quote hquote) (by decide)

/-- In a token a quote stands behind a backslash. -/
theorem quotesEscaped_rawOf : QuotesEscaped (rawOf cs) := by
  induction cs with
  | nil =>
    intro p s h
    cases p <;> cases h
  | cons c cs ih => exact (quotesEscaped_raw c).append ih

theorem fromJsonView_quote (before it : Bytes) :
    fromJsonView false ⟨before, quote :: it⟩ =
      fromJsonViewLoop it it.length ⟨quote :: before, it⟩ := by
  have hquote : 33 ≤ quote.toNat := by decide
  rw [fromJsonView, if_neg Bool.false_ne_true]
  dsimp only
  rw [skipWs_cons hquote (by decide)]
  change (((matchChars [quote] (quote :: it)).map (TextCursor.advance ⟨before, quote :: it⟩)).bind _) = _
  rw [matchChars_cons, Except.map, ← List.singleton_append (l := it), TextCursor.advance_append]
  rfl

/-- A view of a token reads the text between its quotes and ends behind the closing one, exactly
if this text does not end in a backslash. -/
theorem fromJsonView_token_iff (before rest : Bytes) :
    fromJsonView false ⟨before, quote :: (rawOf cs ++ quote :: rest)⟩ =
        .ok (rawOf cs, ⟨quote :: ((rawOf cs).reverse ++ quote :: before), rest⟩) ↔
      (rawOf cs).getLast? ≠ some backslash := by
  have hn : (rawOf cs).length < (rawOf cs ++ quote :: rest).length := by
    rw [List.length_append, List.length_cons]
    omega
  have hbefore : (quote :: before).headD 0 ≠ backslash := show quote ≠ backslash by decide
  obtain ⟨m, hm⟩ := exists_fromJsonViewLoop (rawOf cs ++ quote :: rest) rest
    (quotesEscaped_rawOf cs) hbefore hn
  rw [fromJsonView_quote, hm]
  constructor
  · intro h hlast
    rw [if_neg (not_not.mpr hlast)] at h
    exact absurd (fromJsonViewLoop_length_lt h) (Nat.lt_irrefl _)
  · intro hlast
    rw [if_pos hlast, List.length_append, Nat.add_sub_cancel, List.take_left]

/-- The key that `get_key` makes of a string: one without escapes loses an `'@'` in front. -/
def keyOf : Bytes :=
  if ∀ b ∈ rawOf cs, isEscapeOrQoute b = false then
    if (rawOf cs).head? = some atSign then (rawOf cs).tail else rawOf cs
  else cs.flatMap JsonChar.decoded

/-- A key is taken off up to behind its closing quote. -/
theorem getKey_eq (rest : Bytes) :
    getKey (quote :: (rawOf cs ++ quote :: rest)) = .ok (keyOf cs, rest) := by
  have hquote : 33 ≤ quote.toNat := by decide
  have hstart : (skipWs (quote :: (rawOf cs ++ quote :: rest))).bind (matchChars [quote]) =
      .ok (rawOf cs ++ quote :: rest) := by
    rw [skipWs_cons hquote (by decide)]
    exact matchChars_cons quote _
  have hkey {stop : Bytes} (hstop : skipTillEscapeOrQoute (rawOf cs ++ quote :: rest) = .ok stop) :
      getKey (quote :: (rawOf cs ++ quote :: rest)) =
        if stop.head? = some backslash then fromJsonString true (rawOf cs ++ quote :: rest)
        else
          let key := (rawOf cs ++ quote :: rest).take
            ((rawOf cs ++ quote :: rest).length - stop.length)
          .ok (if key.head? = some atSign then key.tail else key, stop.tail) := by
    rw [getKey, hstart]
    dsimp only [Except.bind]
    rw [hstop]
  by_cases hplain : ∀ b ∈ rawOf cs, isEscapeOrQoute b = false
  · have hquotes : (quote :: rest).head? ≠ some backslash :=
      show some quote ≠ some backslash by decide
    rw [hkey (skipTillEscapeOrQoute_append hplain rfl rest), if_neg hquotes, keyOf, if_pos hplain]
    dsimp only
    rw [List.length_append, Nat.add_sub_cancel, List.take_left]
    rfl
  · -- the first character that is not plain is the backslash of an escape
    cases hfind : (rawOf cs).find? isEscapeOrQoute with
    | none =>
      rw [List.find?_eq_none] at hfind
      exact absurd (fun b hb => Bool.not_eq_true _ ▸ hfind b hb) hplain
    | some b =>
      obtain ⟨hb, p, s, hraw, hp⟩ := List.find?_eq_some_iff_append.mp hfind
      have hp' : ∀ a ∈ p, isEscapeOrQoute a = false := fun a ha => by simpa using hp a ha
      have hback : b = backslash := by
        have hor : b = quote ∨ b = backslash := by simpa [isEscapeOrQoute] using hb
        rcases hor with rfl | rfl
        · have hlast := quotesEscaped_rawOf cs p s hraw
          exact absurd (hp' backslash (List.mem_of_getLast? hlast)) (by decide)
        · rfl
      subst hback
      have hstop : skipTillEscapeOrQoute (rawOf cs ++ quote :: rest) =
          .ok (backslash :: (s ++ quote :: rest)) := by
        rw [hraw, List.append_assoc]
        exact skipTillEscapeOrQoute_append hp' hb _
      rw [hkey hstop, keyOf, if_neg hplain]
      exact fromJsonString_token cs rest

/-- The name of an enumerator is the text between the quotes, and what follows is left. -/
theorem fromJsonEnum_token {ε : Type} {strToEnum : Bytes → Option ε} {value : ε}
    (before rest : Bytes)
    (hvalue : strToEnum (rawOf cs) = some value) (hlast : (rawOf cs).getLast? ≠ some backslash) :
    fromJsonEnum strToEnum ⟨before, quote :: (rawOf cs ++ quote :: rest)⟩ =
      .ok (value, ⟨quote :: ((rawOf cs).reverse ++ quote :: before), rest⟩) := by
  rw [fromJsonEnum, (fromJsonView_token_iff cs before rest).mpr hlast]
  dsimp only [Except.bind]
  rw [hvalue]

/-- The two readers take a token off alike: both end behind its closing quote, and the view is the
text between its quotes. -/
def DelimitsAlike (before rest : Bytes) : Prop :=
  ∃ value, fromJsonString false (quote :: (rawOf cs ++ quote :: rest)) = .ok (value, rest) ∧
    fromJsonView false ⟨before, quote :: (rawOf cs ++ quote :: rest)⟩ =
      .ok (rawOf cs, ⟨quote :: ((rawOf cs).reverse ++ quote :: before), rest⟩)

/-- They do exactly for the tokens that do not end in an escaped backslash. -/
theorem delimitsAlike_iff (before rest : Bytes) :
    DelimitsAlike cs before rest ↔ (rawOf cs).getLast? ≠ some backslash := by
  rw [← fromJsonView_token_iff cs before rest]
  constructor
  · rintro ⟨value, -, h⟩
    exact h
  · intro h
    exact ⟨_, (fromJsonString_quote _).trans (fromJsonString_token cs rest), h⟩

/-- The token `"a\\"`, which stands for a backslash behind an `'a'`, with a comma behind it. -/
theorem not_delimitsAlike_backslash :
    ¬ DelimitsAlike [.plain 0x61 rfl, .escaped backslash (by decide)] [] [0x2C] := by
  rintro ⟨value, -, h⟩
  exact (fromJsonView_token_iff _ _ _).mp h rfl

end Tokens

end Yalantinglibs.Iguana
