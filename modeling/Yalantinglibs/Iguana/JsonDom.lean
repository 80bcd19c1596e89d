import Yalantinglibs.Iguana.JsonNumeric

/-!
# The DOM of a JSON text

`parse` of `iguana/json_reader.hpp` reads a text into a `jvalue`. It skips white space before a
value and behind it, but looks for the end of an empty container and for the colon behind a key
right where it is.

## Main definitions

* `JValue` — a `jvalue`
* `parseArray`, `parseObject`, `parseValue` — the parsers, `parse` on a whole text
* `JsonDoc.value` — what a document stands for

## Main results

* `parse_outcome` — a text is read if it has no blanks where none may be, and rejected else
* `readAlike_iff` — two texts of a document are read alike exactly then
-/

set_option autoImplicit false

namespace Yalantinglibs.Iguana

open ByteCodec

/-! ### The parsers -/

/-- A `jvalue`; the members of an object are in the order of their keys. -/
inductive JValue (δ : Type) where
  | null
  | bool (b : Bool)
  | double (d : δ)
  | int (i : ℤ)
  | string (s : Bytes)
  | array (items : List (JValue δ))
  | object (members : List (Bytes × JValue δ))

section Parsers

variable {δ : Type} (reader : FloatReader δ)

/-- `from_json_impl` for a `bool`. -/
def fromJsonBool (it : Bytes) : Parsed Bool :=
  (skipWs it).bind fun
    | [] => raise "Expected true or false"
    | c :: it =>
      if c = 0x74 then (matchChars (codes ['r', 'u', 'e']) it).map fun it => (true, it)
      else if c = 0x66 then (matchChars (codes ['a', 'l', 's', 'e']) it).map fun it => (false, it)
      else raise "Expected true or false"

/-- The loop of `parse` for a `jarray`, by the parser of its items. -/
def parseArrayLoop (parse : Bytes → Parsed (JValue δ)) :
    ℕ → List (JValue δ) → Bytes → Parsed (List (JValue δ))
  | n, result, it =>
    if it = [] then raise "Expected ]"
    else
      match n with
      | 0 => .error .tooDeep
      | n + 1 =>
        (parse it).bind fun p =>
          if p.2.head? = some 0x5D then .ok (result ++ [p.1], p.2.tail)
          else (matchChars [0x2C] p.2).bind (parseArrayLoop parse n (result ++ [p.1]))

/-- `parse` for a `jarray`. -/
def parseArray (parse : Bytes → Parsed (JValue δ)) (it : Bytes) : Parsed (List (JValue δ)) :=
  ((skipWs it).bind (matchChars [0x5B])).bind fun it =>
    if it.head? = some 0x5D then .ok ([], it.tail)
    else parseArrayLoop parse it.length [] it

/-- A new member in its place. -/
def tryEmplace (key : Bytes) (value : JValue δ) :
    List (Bytes × JValue δ) → List (Bytes × JValue δ)
  | [] => [(key, value)]
  | m :: ms => if key < m.1 then (key, value) :: m :: ms else m :: tryEmplace key value ms

/-- The loop of `parse` for a `jobject`, by the parser of its values. -/
def parseObjectLoop (parse : Bytes → Parsed (JValue δ)) :
    ℕ → List (Bytes × JValue δ) → Bytes → Parsed (List (Bytes × JValue δ))
  | n, result, it =>
    if it = [] then raise "Expected \x7d"
    else
      match n with
      | 0 => .error .tooDeep
      | n + 1 =>
        (fromJsonString false it).bind fun k =>
          if k.1 ∈ result.map Prod.fst then
            raise ("duplicated key " ++ String.ofList (k.1.map fun c => Char.ofNat c.toNat))
          else
            (matchChars [0x3A] k.2).bind fun it =>
              (parse it).bind fun p =>
                if p.2.head? = some 0x7D then .ok (tryEmplace k.1 p.1 result, p.2.tail)
                else
                  (matchChars [0x2C] p.2).bind
                    (parseObjectLoop parse n (tryEmplace k.1 p.1 result))

/-- `parse` for a `jobject`. -/
def parseObject (parse : Bytes → Parsed (JValue δ)) (it : Bytes) :
    Parsed (List (Bytes × JValue δ)) :=
  ((skipWs it).bind (matchChars [0x7B])).bind fun it =>
    if it.head? = some 0x7D then .ok ([], it.tail)
    else (skipWs it).bind fun it => parseObjectLoop parse it.length [] it

variable (parseAsDouble : Bool)

/-- What a number is stored as. -/
def FloatReader.number (d : δ) : JValue δ :=
  match reader.toInt d with
  | some i => if parseAsDouble then .double d else .int i
  | none => .double d

/-- The switch of `parse` for a `jvalue`, by the parser of the values in it; a character behind the
text counts as a zero. -/
def parseSwitch (parse : Bytes → Parsed (JValue δ)) (it : Bytes) : Parsed (JValue δ) :=
  let c := it.headD 0
  if c = 0x6E then (matchChars (codes ['u', 'l', 'l']) it.tail).map fun it => (.null, it)
  else if c = 0x66 ∨ c = 0x74 then (fromJsonBool it).map fun p => (.bool p.1, p.2)
  else if isDigit c ∨ c = 0x2D then
    (fromJsonFloat reader it).map fun p => (reader.number parseAsDouble p.1, p.2)
  else if c = quote then (fromJsonString false it).map fun p => (.string p.1, p.2)
  else if c = 0x5B then (parseArray parse it).map fun p => (.array p.1, p.2)
  else if c = 0x7B then (parseObject parse it).map fun p => (.object p.1, p.2)
  else raise "parse failed"

/-- `parse` for a `jvalue`, with containers at most so deep. -/
def parseValue : ℕ → Bytes → Parsed (JValue δ)
  | 0, _ => .error .tooDeep
  | n + 1, it =>
    ((skipWs it).bind (parseSwitch reader parseAsDouble (parseValue n))).bind fun p =>
      (skipWs p.2).map fun it => (p.1, it)

/-- `parse` on a whole text, which is as long as its containers are deep at least. -/
def parse (text : Bytes) : Parsed (JValue δ) :=
  parseValue reader parseAsDouble (text.length + 1) text

end Parsers

/-! ### Documents -/

/-- What a string stands for. -/
def JsonString.decoded (s : JsonString) : Bytes := s.chars.flatMap JsonChar.decoded

section Value

variable {δ : Type} (reader : FloatReader δ) (parseAsDouble : Bool)

def JsonLiteral.value : JsonLiteral → JValue δ
  | .null => .null
  | .bool b => .bool b
  | .number n => reader.number parseAsDouble (reader.toFloat n.raw)

mutual

/-- What a document stands for. -/
def JsonDoc.value : JsonDoc → JValue δ
  | .literal l => l.value reader parseAsDouble
  | .string s => .string s.decoded
  | .array items => .array (itemValues items)
  | .object members => .object (memberValues [] members)

def itemValues : List JsonDoc → List (JValue δ)
  | [] => []
  | d :: ds => d.value :: itemValues ds

/-- The members of an object behind those that are there. -/
def memberValues (result : List (Bytes × JValue δ)) :
    List (JsonString × JsonDoc) → List (Bytes × JValue δ)
  | [] => result
  | (k, d) :: ms => memberValues (tryEmplace k.decoded d.value result) ms

end

mutual

/-- No object of the document has two members with one key. -/
def JsonDoc.DistinctKeys : JsonDoc → Prop
  | .literal _ => True
  | .string _ => True
  | .array items => ItemsDistinct items
  | .object members => (members.map fun m => m.1.decoded).Nodup ∧ MembersDistinct members

def ItemsDistinct : List JsonDoc → Prop
  | [] => True
  | d :: ds => d.DistinctKeys ∧ ItemsDistinct ds

def MembersDistinct : List (JsonString × JsonDoc) → Prop
  | [] => True
  | (_, d) :: ms => d.DistinctKeys ∧ MembersDistinct ms

end

end Value

/-! ### Tokens that stand next to each other -/

/-- The tokens before which the parser skips no white space: the colon, and the bracket that closes
an empty container. -/
def glued : JsonToken → JsonToken → Prop
  | _, .punct .colon => True
  | .punct .openBracket, .punct .closeBracket => True
  | .punct .openBrace, .punct .closeBrace => True
  | _, _ => False

/-- A value begins with the token. -/
def JsonToken.Begins (t : JsonToken) : Prop :=
  (∀ u, ¬ glued u t) ∧ t.raw.head? ≠ some 0x5D ∧ t.raw.head? ≠ some 0x7D

/-- A value ends with the token. -/
def JsonToken.Ends (t : JsonToken) : Prop := ∀ p, p ≠ .colon → ¬ glued t (.punct p)

theorem not_glued_comma (t : JsonToken) : ¬ glued t (.punct .comma) := by
  cases t with
  | punct p => cases p <;> exact id
  | string | literal => exact id

theorem begins_string (s : JsonString) : JsonToken.Begins (.string s) := by
  refine ⟨fun u => ?_, by simp [JsonToken.raw, JsonString.raw, quote],
    by simp [JsonToken.raw, JsonString.raw, quote]⟩
  cases u with
  | punct p => cases p <;> exact id
  | string | literal => exact id

theorem begins_literal (l : JsonLiteral) : JsonToken.Begins (.literal l) := by
  have hhead : ∀ c, isLiteralChar c = false → l.raw.head? ≠ some c := by
    intro c hc h
    rw [l.isLiteralChar_raw c (List.mem_of_mem_head? h)] at hc
    cases hc
  refine ⟨fun u => ?_, hhead _ rfl, hhead _ rfl⟩
  cases u with
  | punct p => cases p <;> exact id
  | string | literal => exact id

theorem begins_open {p : JsonPunct} (hp : p = .openBracket ∨ p = .openBrace) :
    JsonToken.Begins (.punct p) := by
  refine ⟨fun u => ?_, by rcases hp with rfl | rfl <;> decide,
    by rcases hp with rfl | rfl <;> decide⟩
  rcases hp with rfl | rfl
  all_goals
    cases u with
    | punct p => cases p <;> exact id
    | string | literal => exact id

theorem JsonDoc.exists_begins (d : JsonDoc) : ∃ t ts, d.tokens = t :: ts ∧ t.Begins := by
  cases d with
  | literal l => exact ⟨_, [], rfl, begins_literal l⟩
  | string s => exact ⟨_, [], rfl, begins_string s⟩
  | array items => exact ⟨_, _, by rw [tokens], begins_open (.inl rfl)⟩
  | object members => exact ⟨_, _, by rw [tokens], begins_open (.inr rfl)⟩

theorem ends_of_ne_open {t : JsonToken} (hbracket : t ≠ .punct .openBracket)
    (hbrace : t ≠ .punct .openBrace) : t.Ends := by
  intro p hp
  cases t with
  | punct q =>
    cases q with
    | openBracket => exact absurd rfl hbracket
    | openBrace => exact absurd rfl hbrace
    | closeBracket | closeBrace | colon | comma =>
      cases p <;> first | exact id | exact absurd rfl hp
  | string | literal => cases p <;> first | exact id | exact absurd rfl hp

theorem JsonDoc.exists_ends (d : JsonDoc) : ∃ ts t, d.tokens = ts ++ [t] ∧ t.Ends := by
  cases d with
  | literal l => exact ⟨[], _, rfl, ends_of_ne_open nofun nofun⟩
  | string s => exact ⟨[], _, rfl, ends_of_ne_open nofun nofun⟩
  | array items =>
    refine ⟨.punct .openBracket :: itemTokens items, .punct .closeBracket, ?_,
      ends_of_ne_open nofun nofun⟩
    rw [tokens]
    rfl
  | object members =>
    refine ⟨.punct .openBrace :: memberTokens members, .punct .closeBrace, ?_,
      ends_of_ne_open nofun nofun⟩
    rw [tokens]
    rfl

/-! ### Steps of the parsers -/

/-- What a parser ends with: a value, or an exception if a condition is not met. -/
def Outcome {α : Type} (p : Prop) (r : Except Fault α) (a : α) : Prop :=
  (p → r = .ok a) ∧ (¬ p → ∃ what, r = raise what)

section Outcome

variable {α β : Type} {p q : Prop} {r : Except Fault α} {a : α} {b : β} {f : α → Except Fault β}

theorem outcome_ok (a : α) : Outcome True (.ok a) a := ⟨fun _ => rfl, fun h => absurd trivial h⟩

theorem Outcome.congr (h : Outcome p r a) (hpq : p ↔ q) : Outcome q r a :=
  ⟨fun hq => h.1 (hpq.mpr hq), fun hq => h.2 fun hp => hq (hpq.mp hp)⟩

theorem Outcome.bind (h : Outcome p r a) (hf : Outcome q (f a) b) :
    Outcome (p ∧ q) (r.bind f) b := by
  by_cases hp : p
  · rw [h.1 hp]
    exact hf.congr (and_iff_right hp).symm
  · obtain ⟨what, hr⟩ := h.2 hp
    exact ⟨fun hpq => absurd hpq.1 hp, fun _ => ⟨what, by rw [hr]; rfl⟩⟩

theorem Outcome.map (h : Outcome p r a) (f : α → β) : Outcome p (r.map f) (f a) := by
  refine ⟨fun hp => ?_, fun hp => ?_⟩
  · rw [h.1 hp]
    rfl
  · obtain ⟨what, hr⟩ := h.2 hp
    exact ⟨what, by rw [hr]; rfl⟩

end Outcome

section Steps

variable {last : json.Gap} {qs : List (json.Gap × JsonToken)} {g : json.Gap} {t : JsonToken}

theorem not_visible_of_blank {c : UInt8} (hc : isJsonBlank c = true) :
    c.toNat < 33 ∧ c ≠ slash := by
  simp only [isJsonBlank, Bool.or_eq_true, decide_eq_true_eq] at hc
  rcases hc with ((rfl | rfl) | rfl) | rfl <;> exact ⟨by decide, by decide⟩

/-- Blanks before a visible character, or before the end, are skipped. -/
theorem skipWs_gap_append (g : json.Gap) {it : Bytes} (hit : skipWs it = .ok it) :
    skipWs (g.1 ++ it) = .ok it := by
  have hloop : ∀ (g : Bytes) (n : ℕ), (∀ b ∈ g, isJsonBlank b = true) →
      skipWsLoop (g.length + n) (g ++ it) = skipWsLoop n it := by
    intro g n hg
    induction g with
    | nil => rw [List.length_nil, Nat.zero_add, List.nil_append]
    | cons c g ih =>
      have hc := (not_visible_of_blank (hg c List.mem_cons_self)).1
      rw [List.length_cons, Nat.add_right_comm, List.cons_append, skipWsLoop, if_pos hc]
      exact ih fun b hb => hg b (List.mem_cons_of_mem _ hb)
  rw [skipWs, List.length_append, hloop g.1 _ g.2]
  exact hit

theorem skipWs_raw (t : JsonToken) (it : Bytes) : skipWs (t.raw ++ it) = .ok (t.raw ++ it) := by
  cases t with
  | punct p => cases p <;> exact skipWs_cons (by decide) (by decide)
  | string s => exact skipWs_cons (by decide) (by decide)
  | literal l =>
    obtain ⟨c, cs, hraw⟩ := List.exists_cons_of_ne_nil l.raw_ne
    rw [JsonToken.raw, hraw]
    exact skipWs_literal (l.isLiteralChar_raw c (hraw ▸ List.mem_cons_self)) _

theorem skipWs_bare (last : json.Gap) (qs : List (json.Gap × JsonToken)) :
    skipWs (json.bare last qs) = .ok (json.bare last qs) := by
  cases qs with
  | nil => rfl
  | cons q qs => exact skipWs_raw q.2 _

theorem skipWs_text (last : json.Gap) (qs : List (json.Gap × JsonToken)) :
    skipWs (json.text last qs) = .ok (json.bare last qs) := by
  obtain ⟨g, hg⟩ := Lexis.text_eq_gap_append last qs
  rw [hg]
  exact skipWs_gap_append g (skipWs_bare last qs)

variable {ps : List (json.Gap × JsonToken)}

/-- A punctuation character is there if no blank stands before it. -/
theorem outcome_matchChars (p : JsonPunct) (last g : json.Gap) (qs : List (json.Gap × JsonToken)) :
    Outcome (g.1 = []) (matchChars [p.code] (json.text last ((g, .punct p) :: qs)))
      (json.text last qs) := by
  obtain ⟨g, hg⟩ := g
  cases g with
  | nil => exact ⟨fun _ => matchChars_cons p.code _, fun h => absurd rfl h⟩
  | cons c g =>
    refine ⟨nofun, fun _ => ?_⟩
    have hc : c ≠ p.code := by
      rintro rfl
      have hblank := hg _ List.mem_cons_self
      cases p <;> cases hblank
    have hne : (c :: (g ++ ([p.code] ++ json.text last qs))).take 1 ≠ [p.code] :=
      fun h => hc (List.head_eq_of_cons_eq h)
    exact ⟨_, (if_neg (Nat.not_lt.mpr (Nat.succ_le_succ (Nat.zero_le _)))).trans (if_neg hne)⟩

/-- The bracket that closes an empty container is seen if no blank stands before it. -/
theorem head?_text_cons (last g : json.Gap) (t : JsonToken) (qs : List (json.Gap × JsonToken))
    {c : UInt8} (hc : isJsonBlank c = false) :
    (json.text last ((g, t) :: qs)).head? = some c ↔ g.1 = [] ∧ t.raw.head? = some c := by
  obtain ⟨g, hg⟩ := g
  obtain ⟨d, ds, hraw, -⟩ := t.exists_head
  cases g with
  | nil =>
    rw [hraw]
    show (t.raw ++ _).head? = some c ↔ _
    rw [hraw]
    exact (and_iff_right rfl).symm
  | cons b g =>
    refine iff_of_false ?_ fun h => nomatch h.1
    rintro h
    have hblank := hg b List.mem_cons_self
    rw [show b = c from Option.some.inj h] at hblank
    exact absurd (hblank.symm.trans hc) Bool.false_ne_true.symm

theorem text_ne_nil (last : json.Gap) (q : json.Gap × JsonToken)
    (qs : List (json.Gap × JsonToken)) :
    json.text last (q :: qs) ≠ [] := by
  obtain ⟨g, t⟩ := q
  obtain ⟨c, cs, hraw, -⟩ := t.exists_head
  intro h
  have hnil := (List.append_eq_nil_iff.mp (List.append_eq_nil_iff.mp h).2).1
  exact List.cons_ne_nil c cs (hraw.symm.trans hnil)

/-- What stands behind a value. -/
def Follows (qs : List (json.Gap × JsonToken)) : Prop :=
  ∀ q ∈ qs.head?, q.2 = .punct .comma ∨ q.2 = .punct .closeBracket ∨ q.2 = .punct .closeBrace

/-- A number ends before what stands behind a value. -/
theorem endsNumber_text (hqs : Follows qs) :
    EndsNumber (json.text last qs) ∧ canFollowNumber ((json.text last qs).headD 0) = true := by
  have hblank : ∀ c, isJsonBlank c = true →
      (isDigit c = false ∧ c ≠ 0x2E ∧ c ≠ 0x65 ∧ c ≠ 0x45) ∧ canFollowNumber c = true := by
    intro c hc
    simp only [isJsonBlank, Bool.or_eq_true, decide_eq_true_eq] at hc
    rcases hc with ((rfl | rfl) | rfl) | rfl <;> decide
  have hhead : ∀ c cs, json.text last qs = c :: cs →
      (isDigit c = false ∧ c ≠ 0x2E ∧ c ≠ 0x65 ∧ c ≠ 0x45) ∧ canFollowNumber c = true := by
    intro c cs h
    cases qs with
    | nil =>
      have hlast : last.1 = c :: cs := h
      exact hblank c (last.2 c (hlast ▸ List.mem_cons_self))
    | cons q qs =>
      obtain ⟨⟨g, hg⟩, t⟩ := q
      cases g with
      | cons b g =>
        injection h with hb
        exact hb ▸ hblank b (hg b List.mem_cons_self)
      | nil =>
        rcases hqs _ rfl with rfl | rfl | rfl <;> cases h <;> decide
  cases htext : json.text last qs with
  | nil => exact ⟨by simp [EndsNumber], rfl⟩
  | cons c cs =>
    refine ⟨fun d hd => ?_, (hhead c cs htext).2⟩
    cases hd
    exact (hhead c cs htext).1

/-- A string is read behind white space. -/
theorem fromJsonString_raw {s : JsonString} {it rest : Bytes}
    (hit : skipWs it = .ok (s.raw ++ rest)) :
    fromJsonString false it = .ok (s.decoded, rest) := by
  have htoken := fromJsonString_token s.chars rest
  rw [fromJsonString, if_neg Bool.false_ne_true, hit]
  show ((matchChars [quote] (quote :: _)).bind _) = _
  rw [matchChars_cons]
  show fromJsonString true (rawOf s.chars ++ [quote] ++ rest) = _
  rw [List.append_assoc]
  exact htoken

end Steps

/-! ### Values -/

section Values

variable {δ : Type} (reader : FloatReader δ) (parseAsDouble : Bool) {n : ℕ}
  {last : json.Gap} {ps qs : List (json.Gap × JsonToken)}

/-- What a parser of values does with a document that other tokens follow. -/
def ReadsValue (parse : Bytes → Parsed (JValue δ)) (d : JsonDoc) : Prop :=
  ∀ (last : json.Gap) (ps qs : List (json.Gap × JsonToken)), ps.map Prod.snd = d.tokens →
    Follows qs → Outcome (json.Tight glued ps) (parse (json.text last (ps ++ qs)))
      (d.value reader parseAsDouble, json.bare last qs)

variable {parse : Bytes → Parsed (JValue δ)}

/-- A value is read behind white space, and white space behind it is skipped. -/
theorem readsValue_of_switch {d : JsonDoc}
    (h : ∀ (last : json.Gap) (ps qs : List (json.Gap × JsonToken)), ps.map Prod.snd = d.tokens →
      Follows qs → Outcome (json.Tight glued ps)
        (parseSwitch reader parseAsDouble (parseValue reader parseAsDouble n)
          (json.bare last (ps ++ qs)))
        (d.value reader parseAsDouble, json.text last qs)) :
    ReadsValue reader parseAsDouble (parseValue reader parseAsDouble (n + 1)) d := by
  intro last ps qs hps hqs
  have hws : Outcome True (skipWs (json.text last qs)) (json.bare last qs) := by
    rw [skipWs_text]
    exact outcome_ok _
  rw [parseValue, skipWs_text]
  refine ((h last ps qs hps hqs).bind ?_).congr (and_iff_left trivial)
  exact hws.map fun it => (d.value reader parseAsDouble, it)

theorem parseSwitch_number (k : JsonNumber) (hqs : Follows qs) :
    parseSwitch reader parseAsDouble parse (k.raw ++ json.text last qs) =
      .ok (reader.number parseAsDouble (reader.toFloat k.raw), json.text last qs) := by
  obtain ⟨hends, hfollow⟩ :
      EndsNumber (json.text last qs) ∧ canFollowNumber ((json.text last qs).headD 0) = true :=
    endsNumber_text hqs
  obtain ⟨c, cs, hraw, hc⟩ : ∃ c cs, k.raw = c :: cs ∧ (isDigit c = true ∨ c = 0x2D) := by
    obtain ⟨d, ds, hwhole⟩ := List.exists_cons_of_ne_nil k.whole_ne
    rw [JsonNumber.raw, hwhole]
    cases k.negative with
    | true => exact ⟨0x2D, _, rfl, .inr rfl⟩
    | false => exact ⟨d, _, rfl, .inl (k.whole_digits d (hwhole ▸ List.mem_cons_self))⟩
  have hhead : (k.raw ++ json.text last qs).headD 0 = c := by rw [hraw]; rfl
  have hn : c ≠ 0x6E := by rintro rfl; rcases hc with hc | hc <;> cases hc
  have hft : ¬ (c = 0x66 ∨ c = 0x74) := by
    rintro (rfl | rfl) <;> rcases hc with hc | hc <;> cases hc
  rw [parseSwitch, hhead, if_neg hn, if_neg hft, if_pos hc,
    fromJsonFloat_raw reader k hends hfollow]
  rfl

theorem parseSwitch_n (it : Bytes) : parseSwitch reader parseAsDouble parse (0x6E :: it) =
    (matchChars (codes ['u', 'l', 'l']) it).map fun it => (.null, it) := rfl

theorem parseSwitch_t (it : Bytes) : parseSwitch reader parseAsDouble parse (0x74 :: it) =
    (fromJsonBool (0x74 :: it)).map fun p => (.bool p.1, p.2) := rfl

theorem parseSwitch_f (it : Bytes) : parseSwitch reader parseAsDouble parse (0x66 :: it) =
    (fromJsonBool (0x66 :: it)).map fun p => (.bool p.1, p.2) := rfl

theorem fromJsonBool_append (b : Bool) (it : Bytes) :
    fromJsonBool ((JsonLiteral.bool b).raw ++ it) = .ok (b, it) := by
  have hws : skipWs ((JsonLiteral.bool b).raw ++ it) = .ok ((JsonLiteral.bool b).raw ++ it) :=
    skipWs_raw (.literal (.bool b)) it
  rw [fromJsonBool, hws]
  cases b with
  | true =>
    exact congrArg (Except.map _) (matchChars_append (codes ['r', 'u', 'e']) it)
  | false =>
    exact congrArg (Except.map _) (matchChars_append (codes ['a', 'l', 's', 'e']) it)

theorem parseSwitch_literal (l : JsonLiteral) (hqs : Follows qs) :
    parseSwitch reader parseAsDouble parse (l.raw ++ json.text last qs) =
      .ok (l.value reader parseAsDouble, json.text last qs) := by
  cases l with
  | null =>
    refine (parseSwitch_n reader parseAsDouble _).trans ?_
    exact congrArg (Except.map _) (matchChars_append (codes ['u', 'l', 'l']) _)
  | bool b =>
    have hbool := congrArg (Except.map fun p => ((JValue.bool p.1 : JValue δ), p.2))
      (fromJsonBool_append b (json.text last qs))
    cases b with
    | true => exact (parseSwitch_t reader parseAsDouble _).trans hbool
    | false => exact (parseSwitch_f reader parseAsDouble _).trans hbool
  | number k => exact parseSwitch_number reader parseAsDouble k hqs

theorem parseSwitch_string (s : JsonString) (it : Bytes) :
    parseSwitch reader parseAsDouble parse (s.raw ++ it) = .ok (.string s.decoded, it) := by
  have hread : fromJsonString false (s.raw ++ it) = .ok (s.decoded, it) :=
    fromJsonString_raw (skipWs_raw (.string s) it)
  show (fromJsonString false (s.raw ++ it)).map _ = _
  rw [hread]
  rfl

/-! ### Arrays -/

theorem follows_comma (g : json.Gap) (qs : List (json.Gap × JsonToken)) :
    Follows ((g, .punct .comma) :: qs) := by
  intro q hq
  cases hq
  exact .inl rfl

theorem follows_closeBracket (g : json.Gap) (qs : List (json.Gap × JsonToken)) :
    Follows ((g, .punct .closeBracket) :: qs) := by
  intro q hq
  cases hq
  exact .inr (.inl rfl)

theorem follows_closeBrace (g : json.Gap) (qs : List (json.Gap × JsonToken)) :
    Follows ((g, .punct .closeBrace) :: qs) := by
  intro q hq
  cases hq
  exact .inr (.inr rfl)

/-- The first token of items or of a document does not stand next to any token. -/
theorem not_glued_head {t : JsonToken} {ts : List JsonToken} (hps : ps.map Prod.snd = t :: ts)
    (ht : t.Begins) (as : List (json.Gap × JsonToken)) :
    ∀ q ∈ (ps ++ as).head?, ∀ u, ¬ glued u q.2 := by
  obtain ⟨q, ps, rfl, rfl, -⟩ := List.map_eq_cons_iff.mp hps
  intro q' hq'
  cases hq'
  exact ht.1

theorem exists_itemTokens_begins (d : JsonDoc) (ds : List JsonDoc) :
    ∃ t ts, itemTokens (d :: ds) = t :: ts ∧ t.Begins := by
  obtain ⟨t, ts, htokens, ht⟩ := d.exists_begins
  cases ds with
  | nil => exact ⟨t, ts, by rw [itemTokens]; exact htokens, ht⟩
  | cons d' ds => exact ⟨t, _, by rw [itemTokens_cons_cons, htokens]; rfl, ht⟩

variable {reader parseAsDouble}

/-- The items of an array are read one after the other. -/
theorem outcome_parseArrayLoop {items : List JsonDoc}
    (hitems : ∀ d ∈ items, ReadsValue reader parseAsDouble parse d) (hne : items ≠ [])
    (hps : ps.map Prod.snd = itemTokens items) {m : ℕ} (hm : items.length ≤ m)
    (result : List (JValue δ)) (g : json.Gap) :
    Outcome (json.Tight glued ps)
      (parseArrayLoop parse m result (json.text last (ps ++ (g, .punct .closeBracket) :: qs)))
      (result ++ itemValues reader parseAsDouble items, json.text last qs) := by
  induction items generalizing ps m result with
  | nil => exact absurd rfl hne
  | cons d ds ih =>
    have hd := hitems d List.mem_cons_self
    obtain ⟨m, rfl⟩ : ∃ m', m = m' + 1 :=
      Nat.exists_eq_add_of_le' ((Nat.succ_le_succ (Nat.zero_le _)).trans hm)
    cases ds with
    | nil =>
      rw [itemTokens] at hps
      have hnil : json.text last (ps ++ (g, .punct .closeBracket) :: qs) ≠ [] := by
        cases ps <;> exact text_ne_nil _ _ _
      rw [parseArrayLoop, if_neg hnil]
      refine ((hd last ps _ hps (follows_closeBracket g qs)).bind ?_).congr (and_iff_left trivial)
      exact outcome_ok _
    | cons d' ds =>
      rw [itemTokens_cons_cons] at hps
      obtain ⟨ps, ps', rfl, hd', hps'⟩ := List.map_eq_append_iff.mp hps
      obtain ⟨⟨gc, t⟩, ps', rfl, ht, hds⟩ := List.map_eq_cons_iff.mp hps'
      cases (show t = .punct .comma from ht)
      -- a comma stands behind the first item, and white space before it was skipped
      have htight : json.Tight glued (ps ++ (gc, .punct .comma) :: ps') ↔
          json.Tight glued ps ∧ json.Tight glued ps' := by
        obtain ⟨u, us, hus, hu⟩ := exists_itemTokens_begins d' ds
        have hhead := not_glued_head (hds.trans hus) hu []
        rw [List.append_nil] at hhead
        rw [Lexis.tight_append_iff, Lexis.tight_cons_iff]
        · exact fun q hq => hhead q hq _
        · intro p _ q hq
          cases hq
          exact not_glued_comma _
      have hnil : json.text last (ps ++ (gc, .punct .comma) :: ps' ++
          (g, .punct .closeBracket) :: qs) ≠ [] := by
        cases ps <;> exact text_ne_nil _ _ _
      rw [parseArrayLoop, if_neg hnil, List.append_assoc]
      refine ((hd last ps _ hd' (follows_comma gc _)).bind ?_).congr htight.symm
      have hrest := ih (fun e he => hitems e (List.mem_cons_of_mem _ he)) (List.cons_ne_nil _ _)
        hds (Nat.le_of_succ_le_succ hm) (result ++ [d.value reader parseAsDouble])
      rw [List.append_assoc] at hrest
      exact hrest

theorem length_itemTokens (items : List JsonDoc) : items.length ≤ (itemTokens items).length := by
  induction items with
  | nil => exact Nat.zero_le _
  | cons d ds ih =>
    obtain ⟨t, ts, htokens, -⟩ := d.exists_begins
    cases ds with
    | nil =>
      rw [itemTokens, htokens]
      exact Nat.succ_le_succ (Nat.zero_le _)
    | cons d' ds =>
      have htail : (JsonToken.punct .comma :: itemTokens (d' :: ds)).length =
          (itemTokens (d' :: ds)).length + 1 := rfl
      have hhead : (t :: ts).length = ts.length + 1 := rfl
      rw [itemTokens_cons_cons, htokens, List.length_append, htail, hhead, List.length_cons]
      omega

theorem exists_itemTokens_ends (d : JsonDoc) (ds : List JsonDoc) :
    ∃ ts t, itemTokens (d :: ds) = ts ++ [t] ∧ t.Ends := by
  induction ds generalizing d with
  | nil =>
    obtain ⟨ts, t, htokens, ht⟩ := d.exists_ends
    exact ⟨ts, t, by rw [itemTokens]; exact htokens, ht⟩
  | cons d' ds ih =>
    obtain ⟨ts, t, htokens, ht⟩ := ih d'
    refine ⟨d.tokens ++ .punct .comma :: ts, t, ?_, ht⟩
    rw [itemTokens_cons_cons, htokens, List.append_assoc]
    rfl

/-- No bracket stands next to the last token of items or members. -/
theorem not_glued_last {t : JsonToken} {ts : List JsonToken} (hps : ps.map Prod.snd = ts ++ [t])
    (ht : t.Ends) {p : JsonPunct} (hp : p ≠ .colon) :
    ∀ q ∈ ps.getLast?, ¬ glued q.2 (.punct p) := by
  intro q hq
  have hlast := congrArg List.getLast? hps
  rw [List.getLast?_map, hq, List.getLast?_concat] at hlast
  rw [show q.2 = t from Option.some.inj hlast]
  exact ht p hp

/-- The tokens of a container: its brackets, and what is between them. -/
theorem exists_of_brackets {b c : JsonToken} {ts : List JsonToken}
    (hps : ps.map Prod.snd = b :: (ts ++ [c])) :
    ∃ g qs g', ps = (g, b) :: (qs ++ [(g', c)]) ∧ qs.map Prod.snd = ts := by
  obtain ⟨⟨g, u⟩, ps, rfl, rfl, hrest⟩ := List.map_eq_cons_iff.mp hps
  obtain ⟨qs, ps', rfl, hqs, hlast⟩ := List.map_eq_append_iff.mp hrest
  obtain ⟨⟨g', v⟩, ps', rfl, rfl, hnil⟩ := List.map_eq_cons_iff.mp hlast
  rw [List.map_eq_nil_iff.mp hnil]
  exact ⟨g, qs, g', rfl, hqs⟩

/-- An empty container is read if no blank stands in it. -/
theorem outcome_close {α : Type} {a : α} (p : JsonPunct) (g : json.Gap) {r : Parsed α}
    (hr : g.1 ≠ [] → ∃ what, r = raise what) :
    Outcome (g.1 = [])
      (if (json.text last ((g, .punct p) :: qs)).head? = some p.code then
        .ok (a, (json.text last ((g, .punct p) :: qs)).tail) else r)
      (a, json.text last qs) := by
  have hblank : isJsonBlank p.code = false := by cases p <;> rfl
  have hhead := head?_text_cons last g (.punct p) qs hblank
  obtain ⟨g, hg⟩ := g
  refine ⟨?_, fun hne => ?_⟩
  · rintro rfl
    exact if_pos rfl
  · obtain ⟨what, hwhat⟩ := hr hne
    refine ⟨what, ?_⟩
    rw [if_neg fun h => hne (hhead.mp h).1]
    exact hwhat

/-- An array is read if no blanks stand in it where it is empty. -/
theorem outcome_parseArray {items : List JsonDoc}
    (hitems : ∀ d ∈ items, ReadsValue reader parseAsDouble parse d)
    (hclose : ∀ (g : json.Gap) (qs : List (json.Gap × JsonToken)),
      ∃ what, parse (json.text last ((g, .punct .closeBracket) :: qs)) = raise what)
    (hps : ps.map Prod.snd = (JsonDoc.array items).tokens) :
    Outcome (json.Tight glued ps) (parseArray parse (json.bare last (ps ++ qs)))
      (itemValues reader parseAsDouble items, json.text last qs) := by
  rw [JsonDoc.tokens] at hps
  obtain ⟨g, ps, g', rfl, hitemTokens⟩ := exists_of_brackets hps
  have hopen : (skipWs (json.bare last ((g, .punct .openBracket) ::
      (ps ++ [(g', .punct .closeBracket)]) ++ qs))).bind (matchChars [0x5B]) =
      .ok (json.text last (ps ++ (g', .punct .closeBracket) :: qs)) := by
    rw [skipWs_bare, List.cons_append, List.append_assoc]
    exact matchChars_cons _ _
  rw [parseArray, hopen]
  cases items with
  | nil =>
    rw [itemTokens] at hitemTokens
    cases List.map_eq_nil_iff.mp hitemTokens
    have htight : json.Tight glued [(g, .punct .openBracket), (g', .punct .closeBracket)] ↔
        g'.1 = [] := by
      rw [Lexis.tight_cons_cons_iff trivial]
      exact and_iff_left (List.isChain_singleton _)
    refine (outcome_close .closeBracket g' fun _ => ?_).congr htight.symm
    have hne := text_ne_nil last (g', .punct .closeBracket) qs
    obtain ⟨m, hm⟩ := Nat.exists_eq_succ_of_ne_zero (mt List.length_eq_zero_iff.mp hne)
    obtain ⟨what, hwhat⟩ := hclose g' qs
    refine ⟨what, ?_⟩
    rw [List.nil_append, hm, parseArrayLoop, if_neg hne, hwhat]
    rfl
  | cons d ds =>
    obtain ⟨t, ts, htokens, ht⟩ := exists_itemTokens_begins d ds
    obtain ⟨us, u, hlast, hu⟩ := exists_itemTokens_ends d ds
    have htight : json.Tight glued ((g, .punct .openBracket) ::
        (ps ++ [(g', .punct .closeBracket)])) ↔ json.Tight glued ps := by
      rw [Lexis.tight_cons_iff, Lexis.tight_append_iff]
      · exact and_iff_left (List.isChain_singleton _)
      · intro q hq q' hq'
        cases hq'
        have hp : JsonPunct.closeBracket ≠ .colon := by decide
        exact not_glued_last (hitemTokens.trans hlast) hu hp q hq
      · exact fun q hq => not_glued_head (hitemTokens.trans htokens) ht _ q hq _
    have hhead : (json.text last (ps ++ (g', .punct .closeBracket) :: qs)).head? ≠ some 0x5D := by
      obtain ⟨⟨g₁, t₁⟩, ps, rfl, ht₁, -⟩ := List.map_eq_cons_iff.mp (hitemTokens.trans htokens)
      cases (show t₁ = t from ht₁)
      rw [List.cons_append, Ne, head?_text_cons _ _ _ _ rfl]
      exact fun h => ht.2.1 h.2
    have hlength : (d :: ds).length ≤
        (json.text last (ps ++ (g', .punct .closeBracket) :: qs)).length := by
      have hps := length_itemTokens (d :: ds)
      rw [← hitemTokens, List.length_map] at hps
      have htext := Lexis.length_le_length_text last (ps ++ (g', .punct .closeBracket) :: qs)
      rw [List.length_append] at htext
      omega
    show Outcome _ (if (json.text last (ps ++ (g', .punct .closeBracket) :: qs)).head? = some 0x5D
      then _ else _) _
    rw [if_neg hhead]
    exact (outcome_parseArrayLoop hitems (List.cons_ne_nil _ _) hitemTokens hlength [] g').congr
      htight.symm

/-! ### Objects -/

theorem mem_map_fst_tryEmplace {key k : Bytes} {value : JValue δ}
    {result : List (Bytes × JValue δ)} :
    k ∈ (tryEmplace key value result).map Prod.fst ↔ k = key ∨ k ∈ result.map Prod.fst := by
  induction result with
  | nil => exact List.mem_cons
  | cons m ms ih =>
    rw [tryEmplace]
    by_cases hlt : key < m.1
    · rw [if_pos hlt, List.map_cons, List.mem_cons]
    · rw [if_neg hlt, List.map_cons, List.mem_cons, ih, List.map_cons, List.mem_cons, or_left_comm]

/-- The tokens of a member and of what follows it. -/
theorem exists_of_member {k : JsonString} {ts : List JsonToken}
    (hps : ps.map Prod.snd = .string k :: .punct .colon :: ts) :
    ∃ gk gc qs, ps = (gk, .string k) :: (gc, .punct .colon) :: qs ∧ qs.map Prod.snd = ts := by
  obtain ⟨⟨gk, u⟩, ps, rfl, rfl, hrest⟩ := List.map_eq_cons_iff.mp hps
  obtain ⟨⟨gc, v⟩, ps, rfl, rfl, hts⟩ := List.map_eq_cons_iff.mp hrest
  exact ⟨gk, gc, ps, rfl, hts⟩

theorem tight_member_iff {k : JsonString} {t : JsonToken} {ts : List JsonToken} (gk gc : json.Gap)
    (hqs : qs.map Prod.snd = t :: ts) (ht : t.Begins) :
    json.Tight glued ((gk, .string k) :: (gc, .punct .colon) :: qs) ↔
      gc.1 = [] ∧ json.Tight glued qs := by
  have hhead := not_glued_head hqs ht []
  rw [List.append_nil] at hhead
  rw [Lexis.tight_cons_cons_iff trivial, Lexis.tight_cons_iff fun q hq => hhead q hq _]

/-- A member is read up to its value, if no blank stands behind its key. -/
theorem outcome_member {α : Type} {d : JsonDoc} {a : α} {p : Prop}
    (hd : ReadsValue reader parseAsDouble parse d) (gc : json.Gap)
    (hps : ps.map Prod.snd = d.tokens) (hqs : Follows qs) {f : JValue δ × Bytes → Except Fault α}
    (hf : Outcome p (f (d.value reader parseAsDouble, json.bare last qs)) a) :
    Outcome (gc.1 = [] ∧ json.Tight glued ps ∧ p)
      ((matchChars [0x3A] (json.text last ((gc, .punct .colon) :: (ps ++ qs)))).bind fun it =>
        (parse it).bind f) a :=
  (outcome_matchChars .colon last gc (ps ++ qs)).bind ((hd last ps qs hps hqs).bind hf)

theorem parseObjectLoop_eq {k : JsonString} {m : ℕ} {result : List (Bytes × JValue δ)}
    {it rest : Bytes} (hne : it ≠ []) (hit : skipWs it = .ok (k.raw ++ rest))
    (hk : k.decoded ∉ result.map Prod.fst) :
    parseObjectLoop parse (m + 1) result it =
      (matchChars [0x3A] rest).bind fun it => (parse it).bind fun p =>
        if p.2.head? = some 0x7D then .ok (tryEmplace k.decoded p.1 result, p.2.tail)
        else (matchChars [0x2C] p.2).bind
          (parseObjectLoop parse m (tryEmplace k.decoded p.1 result)) := by
  rw [parseObjectLoop, if_neg hne, fromJsonString_raw hit]
  exact if_neg hk

theorem exists_memberTokens (m : JsonString × JsonDoc) (ms : List (JsonString × JsonDoc)) :
    ∃ ts, memberTokens (m :: ms) = .string m.1 :: ts := by
  cases ms with
  | nil => exact ⟨_, by rw [memberTokens]⟩
  | cons m' ms => exact ⟨_, memberTokens_cons_cons m.1 m.2 m' ms⟩

/-- The members of an object are read one after the other. -/
theorem outcome_parseObjectLoop {members : List (JsonString × JsonDoc)}
    (hvalues : ∀ m ∈ members, ReadsValue reader parseAsDouble parse m.2) (hne : members ≠ [])
    (hps : ps.map Prod.snd = memberTokens members) {m : ℕ} (hm : members.length ≤ m)
    {result : List (Bytes × JValue δ)} (hnodup : (members.map fun m => m.1.decoded).Nodup)
    (hresult : ∀ m ∈ members, m.1.decoded ∉ result.map Prod.fst) (g : json.Gap) {it : Bytes}
    (hitne : it ≠ [])
    (hit : skipWs it = .ok (json.bare last (ps ++ (g, .punct .closeBrace) :: qs))) :
    Outcome (json.Tight glued ps) (parseObjectLoop parse m result it)
      (memberValues reader parseAsDouble result members, json.text last qs) := by
  induction members generalizing ps m result it with
  | nil => exact absurd rfl hne
  | cons kd ms ih =>
    obtain ⟨k, d⟩ := kd
    have hd : ReadsValue reader parseAsDouble parse d := hvalues (k, d) List.mem_cons_self
    have hk : k.decoded ∉ result.map Prod.fst := hresult (k, d) List.mem_cons_self
    obtain ⟨t, ts, htokens, ht⟩ := d.exists_begins
    obtain ⟨m, rfl⟩ : ∃ m', m = m' + 1 :=
      Nat.exists_eq_add_of_le' ((Nat.succ_le_succ (Nat.zero_le _)).trans hm)
    cases ms with
    | nil =>
      rw [memberTokens] at hps
      obtain ⟨gk, gc, ps, rfl, hdps⟩ := exists_of_member hps
      rw [parseObjectLoop_eq hitne hit hk, tight_member_iff gk gc (hdps.trans htokens) ht]
      have hend := follows_closeBrace g qs
      refine (outcome_member hd gc hdps hend (?_ : Outcome True _ _)).congr
        (and_congr_right' (and_iff_left trivial))
      exact outcome_ok _
    | cons m' ms =>
      rw [memberTokens_cons_cons] at hps
      obtain ⟨gk, gc, ps, rfl, hrest⟩ := exists_of_member hps
      obtain ⟨ps, ps', rfl, hdps, hps'⟩ := List.map_eq_append_iff.mp hrest
      obtain ⟨⟨gm, u⟩, ps', rfl, hu, hms⟩ := List.map_eq_cons_iff.mp hps'
      cases (show u = .punct .comma from hu)
      obtain ⟨us, hus⟩ := exists_memberTokens m' ms
      have htight : json.Tight glued (ps ++ (gm, .punct .comma) :: ps') ↔
          json.Tight glued ps ∧ json.Tight glued ps' := by
        have hhead := not_glued_head (hms.trans hus) (begins_string m'.1) []
        rw [List.append_nil] at hhead
        rw [Lexis.tight_append_iff, Lexis.tight_cons_iff]
        · exact fun q hq => hhead q hq _
        · intro p _ q hq
          cases hq
          exact not_glued_comma _
      have hmember : (ps ++ (gm, JsonToken.punct .comma) :: ps').map Prod.snd = t ::
          (ts ++ .punct .comma :: memberTokens (m' :: ms)) := by
        rw [List.map_append, List.map_cons, hdps, hms, htokens]
        rfl
      have hnodup' := List.nodup_cons.mp hnodup
      have hresult' : ∀ m ∈ m' :: ms, m.1.decoded ∉
          (tryEmplace k.decoded (d.value reader parseAsDouble) result).map Prod.fst := by
        intro m hm hmem
        rcases mem_map_fst_tryEmplace.mp hmem with heq | hmem
        · apply hnodup'.1
          show k.decoded ∈ _
          rw [← heq]
          exact List.mem_map_of_mem hm
        · exact hresult m (List.mem_cons_of_mem _ hm) hmem
      have hitne' : json.text last (ps' ++ (g, .punct .closeBrace) :: qs) ≠ [] := by
        cases ps' <;> exact text_ne_nil _ _ _
      have hrest := ih (fun m hm => hvalues m (List.mem_cons_of_mem _ hm)) (List.cons_ne_nil _ _)
        hms (Nat.le_of_succ_le_succ hm) hnodup'.2 hresult' hitne' (skipWs_text last _)
      rw [parseObjectLoop_eq hitne hit hk, tight_member_iff gk gc hmember ht, htight]
      have hassoc : ps ++ (gm, JsonToken.punct .comma) :: ps' ++ (g, .punct .closeBrace) :: qs =
          ps ++ (gm, .punct .comma) :: (ps' ++ (g, .punct .closeBrace) :: qs) :=
        List.append_assoc _ _ _
      show Outcome _ ((matchChars [0x3A] (json.text last ((gc, .punct .colon) ::
        (ps ++ (gm, JsonToken.punct .comma) :: ps' ++ (g, .punct .closeBrace) :: qs)))).bind _) _
      rw [hassoc]
      exact outcome_member hd gc hdps (follows_comma gm _) hrest

theorem length_memberTokens (members : List (JsonString × JsonDoc)) :
    members.length ≤ (memberTokens members).length := by
  induction members with
  | nil => exact Nat.zero_le _
  | cons m ms ih =>
    obtain ⟨k, d⟩ := m
    cases ms with
    | nil =>
      rw [memberTokens]
      exact Nat.succ_le_succ (Nat.zero_le _)
    | cons m' ms =>
      have hlength : (memberTokens ((k, d) :: m' :: ms)).length =
          d.tokens.length + (memberTokens (m' :: ms)).length + 3 := by
        rw [memberTokens_cons_cons, List.length_cons, List.length_cons, List.length_append,
          List.length_cons]
        omega
      rw [hlength, List.length_cons]
      omega

theorem exists_memberTokens_ends (m : JsonString × JsonDoc) (ms : List (JsonString × JsonDoc)) :
    ∃ ts t, memberTokens (m :: ms) = ts ++ [t] ∧ t.Ends := by
  induction ms generalizing m with
  | nil =>
    obtain ⟨k, d⟩ := m
    obtain ⟨ts, t, htokens, ht⟩ := d.exists_ends
    exact ⟨.string k :: .punct .colon :: ts, t, by rw [memberTokens, htokens]; rfl, ht⟩
  | cons m' ms ih =>
    obtain ⟨k, d⟩ := m
    obtain ⟨ts, t, htokens, ht⟩ := ih m'
    refine ⟨.string k :: .punct .colon :: (d.tokens ++ .punct .comma :: ts), t, ?_, ht⟩
    rw [memberTokens_cons_cons, htokens]
    simp

theorem fromJsonString_closeBrace (it : Bytes) :
    ∃ what, fromJsonString false (0x7D :: it) = raise what := by
  have hne : (0x7D :: it).take 1 ≠ [quote] := fun h => by cases h
  obtain ⟨what, hmatch⟩ : ∃ what, matchChars [quote] (0x7D :: it) = raise what :=
    ⟨_, (if_neg (Nat.not_lt.mpr (Nat.succ_le_succ (Nat.zero_le _)))).trans (if_neg hne)⟩
  refine ⟨what, ?_⟩
  rw [fromJsonString, if_neg Bool.false_ne_true, skipWs_cons (by decide) (by decide)]
  show (matchChars [quote] (0x7D :: it)).bind _ = _
  rw [hmatch]
  rfl

/-- An object is read if no blank stands behind its keys, and none in it where it is empty. -/
theorem outcome_parseObject {members : List (JsonString × JsonDoc)}
    (hvalues : ∀ m ∈ members, ReadsValue reader parseAsDouble parse m.2)
    (hnodup : (members.map fun m => m.1.decoded).Nodup)
    (hps : ps.map Prod.snd = (JsonDoc.object members).tokens) :
    Outcome (json.Tight glued ps) (parseObject parse (json.bare last (ps ++ qs)))
      (memberValues reader parseAsDouble [] members, json.text last qs) := by
  rw [JsonDoc.tokens] at hps
  obtain ⟨g, ps, g', rfl, htokens⟩ := exists_of_brackets hps
  have hopen : (skipWs (json.bare last ((g, .punct .openBrace) ::
      (ps ++ [(g', .punct .closeBrace)]) ++ qs))).bind (matchChars [0x7B]) =
      .ok (json.text last (ps ++ (g', .punct .closeBrace) :: qs)) := by
    rw [skipWs_bare, List.cons_append, List.append_assoc]
    exact matchChars_cons _ _
  rw [parseObject, hopen]
  cases members with
  | nil =>
    rw [memberTokens] at htokens
    cases List.map_eq_nil_iff.mp htokens
    have htight : json.Tight glued [(g, .punct .openBrace), (g', .punct .closeBrace)] ↔
        g'.1 = [] := by
      rw [Lexis.tight_cons_cons_iff trivial]
      exact and_iff_left (List.isChain_singleton _)
    refine (outcome_close .closeBrace g' fun _ => ?_).congr htight.symm
    -- the loop looks for a key
    obtain ⟨what, hwhat⟩ := fromJsonString_closeBrace (json.text last qs)
    have hloop : parseObjectLoop parse (0x7D :: json.text last qs).length []
        (0x7D :: json.text last qs) = raise what := by
      rw [List.length_cons, parseObjectLoop, if_neg (List.cons_ne_nil _ _), hwhat]
      rfl
    refine ⟨what, ?_⟩
    rw [List.nil_append, skipWs_text]
    exact hloop
  | cons m ms =>
    obtain ⟨ts, hts⟩ := exists_memberTokens m ms
    obtain ⟨us, u, hlast, hu⟩ := exists_memberTokens_ends m ms
    have ht := begins_string m.1
    have htight : json.Tight glued ((g, .punct .openBrace) ::
        (ps ++ [(g', .punct .closeBrace)])) ↔ json.Tight glued ps := by
      rw [Lexis.tight_cons_iff, Lexis.tight_append_iff]
      · exact and_iff_left (List.isChain_singleton _)
      · intro q hq q' hq'
        cases hq'
        have hp : JsonPunct.closeBrace ≠ .colon := by decide
        exact not_glued_last (htokens.trans hlast) hu hp q hq
      · exact fun q hq => not_glued_head (htokens.trans hts) ht _ q hq _
    have hhead : (json.text last (ps ++ (g', .punct .closeBrace) :: qs)).head? ≠ some 0x7D := by
      obtain ⟨⟨g₁, t₁⟩, ps, rfl, ht₁, -⟩ := List.map_eq_cons_iff.mp (htokens.trans hts)
      cases (show t₁ = .string m.1 from ht₁)
      rw [List.cons_append, Ne, head?_text_cons _ _ _ _ rfl]
      exact fun h => ht.2.2 h.2
    have hbare : json.bare last (ps ++ (g', .punct .closeBrace) :: qs) ≠ [] := by
      obtain ⟨⟨g₁, t₁⟩, ps, rfl, ht₁, -⟩ := List.map_eq_cons_iff.mp (htokens.trans hts)
      cases (show t₁ = .string m.1 from ht₁)
      exact List.cons_ne_nil quote _
    have hlength : (m :: ms).length ≤
        (json.bare last (ps ++ (g', .punct .closeBrace) :: qs)).length := by
      have hps := length_memberTokens (m :: ms)
      rw [← htokens, List.length_map] at hps
      have htext := Lexis.length_le_length_bare last (ps ++ (g', .punct .closeBrace) :: qs)
      rw [List.length_append] at htext
      omega
    show Outcome _ (if (json.text last (ps ++ (g', .punct .closeBrace) :: qs)).head? = some 0x7D
      then _ else _) _
    rw [if_neg hhead, skipWs_text]
    exact (outcome_parseObjectLoop hvalues (List.cons_ne_nil _ _) htokens hlength hnodup
      (fun _ _ => List.not_mem_nil) g' hbare (skipWs_bare last _)).congr htight.symm

/-! ### Documents of any depth -/

theorem parseValue_closeBracket (n : ℕ) (g : json.Gap) (qs : List (json.Gap × JsonToken)) :
    ∃ what, parseValue reader parseAsDouble (n + 1)
      (json.text last ((g, .punct .closeBracket) :: qs)) = raise what := by
  refine ⟨"parse failed", ?_⟩
  rw [parseValue, skipWs_text]
  rfl

theorem exists_of_singleton {t : JsonToken} (hps : ps.map Prod.snd = [t]) : ∃ g, ps = [(g, t)] := by
  obtain ⟨⟨g, u⟩, ps, rfl, rfl, hnil⟩ := List.map_eq_cons_iff.mp hps
  rw [List.map_eq_nil_iff.mp hnil]
  exact ⟨g, rfl⟩

/-- A document of one token is read wherever it stands. -/
theorem readsValue_of_token {d : JsonDoc} {t : JsonToken} (htokens : d.tokens = [t])
    (h : ∀ (last : json.Gap) (qs : List (json.Gap × JsonToken)), Follows qs →
      parseSwitch reader parseAsDouble (parseValue reader parseAsDouble n)
        (t.raw ++ json.text last qs) = .ok (d.value reader parseAsDouble, json.text last qs)) :
    ReadsValue reader parseAsDouble (parseValue reader parseAsDouble (n + 1)) d := by
  refine readsValue_of_switch reader parseAsDouble fun last ps qs hps hqs => ?_
  obtain ⟨g, rfl⟩ := exists_of_singleton (hps.trans htokens)
  have hread := h last qs hqs
  exact ⟨fun _ => hread, fun h => absurd (List.isChain_singleton _) h⟩

mutual

/-- A document is read by a parser that may go deep enough. -/
theorem readsValue (d : JsonDoc) (n : ℕ) (hn : d.nesting < n) (hd : d.DistinctKeys) :
    ReadsValue reader parseAsDouble (parseValue reader parseAsDouble n) d := by
  obtain ⟨n, rfl⟩ : ∃ m, n = m + 1 := Nat.exists_eq_add_of_le' (Nat.one_le_of_lt hn)
  match d with
  | .literal l =>
    exact readsValue_of_token rfl fun _ _ hqs => parseSwitch_literal reader parseAsDouble l hqs
  | .string s =>
    exact readsValue_of_token rfl fun _ _ _ => parseSwitch_string reader parseAsDouble s _
  | .array items =>
    rw [JsonDoc.nesting] at hn
    rw [JsonDoc.DistinctKeys] at hd
    have hitems := readsItems items n (Nat.lt_of_succ_lt_succ hn) hd
    obtain ⟨m, rfl⟩ : ∃ m, n = m + 1 := Nat.exists_eq_add_of_le' (by omega)
    refine readsValue_of_switch reader parseAsDouble fun last ps qs hps _ => ?_
    have harray : Outcome (json.Tight glued ps)
        (parseArray (parseValue reader parseAsDouble (m + 1)) (json.bare last (ps ++ qs)))
        (itemValues reader parseAsDouble items, json.text last qs) :=
      outcome_parseArray hitems (parseValue_closeBracket m) hps
    rw [JsonDoc.tokens] at hps
    obtain ⟨g, ps, g', rfl, -⟩ := exists_of_brackets hps
    exact harray.map fun p => (JValue.array p.1, p.2)
  | .object members =>
    rw [JsonDoc.nesting] at hn
    rw [JsonDoc.DistinctKeys] at hd
    have hvalues := readsMembers members n (Nat.lt_of_succ_lt_succ hn) hd.2
    refine readsValue_of_switch reader parseAsDouble fun last ps qs hps _ => ?_
    have hobject : Outcome (json.Tight glued ps)
        (parseObject (parseValue reader parseAsDouble n) (json.bare last (ps ++ qs)))
        (memberValues reader parseAsDouble [] members, json.text last qs) :=
      outcome_parseObject hvalues hd.1 hps
    rw [JsonDoc.tokens] at hps
    obtain ⟨g, ps, g', rfl, -⟩ := exists_of_brackets hps
    exact hobject.map fun p => (JValue.object p.1, p.2)

theorem readsItems (items : List JsonDoc) (n : ℕ) (hn : itemNesting items < n)
    (hd : ItemsDistinct items) : ∀ d ∈ items,
      ReadsValue reader parseAsDouble (parseValue reader parseAsDouble n) d := by
  match items with
  | [] => exact List.forall_mem_nil _
  | d :: ds =>
    rw [itemNesting] at hn
    rw [ItemsDistinct] at hd
    exact List.forall_mem_cons.mpr ⟨readsValue d n (lt_of_le_of_lt (le_max_left _ _) hn) hd.1,
      readsItems ds n (lt_of_le_of_lt (le_max_right _ _) hn) hd.2⟩

theorem readsMembers (members : List (JsonString × JsonDoc)) (n : ℕ)
    (hn : memberNesting members < n) (hd : MembersDistinct members) : ∀ m ∈ members,
      ReadsValue reader parseAsDouble (parseValue reader parseAsDouble n) m.2 := by
  match members with
  | [] => exact List.forall_mem_nil _
  | (k, d) :: ms =>
    rw [memberNesting] at hn
    rw [MembersDistinct] at hd
    exact List.forall_mem_cons.mpr ⟨readsValue d n (lt_of_le_of_lt (le_max_left _ _) hn) hd.1,
      readsMembers ms n (lt_of_le_of_lt (le_max_right _ _) hn) hd.2⟩

end

end Values

/-! ### Whole texts -/

/-- A text of a document: its tokens, and the blanks around them. -/
def JsonDoc.Layout (d : JsonDoc) : Type :=
  {l : json.Gap × List (json.Gap × JsonToken) // l.2.map Prod.snd = d.tokens}

/-- The text. -/
def JsonDoc.Layout.text {d : JsonDoc} (l : d.Layout) : Bytes := json.text l.1.1 l.1.2

/-- No blanks in an empty container, nor between a key and its colon. -/
def JsonDoc.Layout.Tight {d : JsonDoc} (l : d.Layout) : Prop := json.Tight glued l.1.2

mutual

theorem JsonDoc.nesting_le_length (d : JsonDoc) : d.nesting ≤ d.tokens.length := by
  match d with
  | .literal l => exact Nat.zero_le _
  | .string s => exact Nat.zero_le _
  | .array items =>
    have hitems := itemNesting_le_length items
    rw [JsonDoc.nesting, JsonDoc.tokens, List.length_cons, List.length_append]
    omega
  | .object members =>
    have hmembers := memberNesting_le_length members
    rw [JsonDoc.nesting, JsonDoc.tokens, List.length_cons, List.length_append]
    omega

theorem itemNesting_le_length (items : List JsonDoc) :
    itemNesting items ≤ (itemTokens items).length := by
  match items with
  | [] => exact Nat.zero_le _
  | [d] =>
    rw [itemNesting, itemNesting, itemTokens, Nat.max_zero]
    exact d.nesting_le_length
  | d :: d' :: ds =>
    have hd := d.nesting_le_length
    have hds := itemNesting_le_length (d' :: ds)
    rw [itemNesting, itemTokens_cons_cons, List.length_append, List.length_cons]
    omega

theorem memberNesting_le_length (members : List (JsonString × JsonDoc)) :
    memberNesting members ≤ (memberTokens members).length := by
  match members with
  | [] => exact Nat.zero_le _
  | [(k, d)] =>
    have hd := d.nesting_le_length
    rw [memberNesting, memberNesting, memberTokens, List.length_cons, List.length_cons]
    omega
  | (k, d) :: m :: ms =>
    have hd := d.nesting_le_length
    have hms := memberNesting_le_length (m :: ms)
    rw [memberNesting, memberTokens_cons_cons, List.length_cons, List.length_cons,
      List.length_append, List.length_cons]
    omega

end

section Texts

variable {δ : Type} (reader : FloatReader δ) (parseAsDouble : Bool)

/-- A text is read up to its end if no blank stands where none may be, and else rejected. -/
theorem parse_outcome {d : JsonDoc} (hd : d.DistinctKeys) (l : d.Layout) :
    Outcome l.Tight (parse reader parseAsDouble l.text) (d.value reader parseAsDouble, []) := by
  obtain ⟨⟨last, gs⟩, hgs⟩ := l
  have htokens : gs.map Prod.snd = d.tokens := hgs
  have hnesting := d.nesting_le_length
  rw [← htokens, List.length_map] at hnesting
  have hlength := Lexis.length_le_length_text last gs
  have hread : Outcome (json.Tight glued gs) (parse reader parseAsDouble
      (json.text last (gs ++ []))) (d.value reader parseAsDouble, json.bare last []) := by
    rw [parse]
    exact readsValue d _ (by rw [List.append_nil]; omega) hd last gs [] hgs nofun
  rw [List.append_nil] at hread
  exact hread

/-- Both texts are read up to their ends, and stand for the same. -/
def ReadAlike (t t' : Bytes) : Prop :=
  ∃ v, parse reader parseAsDouble t = .ok (v, []) ∧ parse reader parseAsDouble t' = .ok (v, [])

/-- Two texts of a document are read alike exactly if in both no blank stands where none may be. -/
theorem readAlike_iff (d : {d : JsonDoc // d.DistinctKeys}) (l l' : d.1.Layout) :
    ReadAlike reader parseAsDouble l.text l'.text ↔ l.Tight ∧ l'.Tight := by
  have htight (l : d.1.Layout) {v : JValue δ}
      (h : parse reader parseAsDouble l.text = .ok (v, [])) : l.Tight := by
    by_contra hl
    obtain ⟨what, hwhat⟩ := (parse_outcome reader parseAsDouble d.2 l).2 hl
    cases h.symm.trans hwhat
  constructor
  · rintro ⟨v, h, h'⟩
    exact ⟨htight l h, htight l' h'⟩
  · rintro ⟨h, h'⟩
    exact ⟨_, (parse_outcome reader parseAsDouble d.2 l).1 h,
      (parse_outcome reader parseAsDouble d.2 l').1 h'⟩

/-- The texts `{"a":null}` and `{"a" :null}`. -/
theorem not_readAlike_spacedColon :
    let d : JsonDoc := .object [(⟨[.plain 0x61 rfl], by decide⟩, .literal .null)]
    let t : Bytes := codes ['\x7b', '"', 'a', '"', ':', 'n', 'u', 'l', 'l', '\x7d']
    let t' : Bytes := codes ['\x7b', '"', 'a', '"', ' ', ':', 'n', 'u', 'l', 'l', '\x7d']
    d.IsText t ∧ d.IsText t' ∧
      ¬ ReadAlike (⟨fun _ => (), fun _ => none, fun _ => none⟩ : FloatReader Unit) false t t' := by
  refine ⟨⟨json.noGap, [(json.noGap, _), (json.noGap, _), (json.noGap, _), (json.noGap, _),
    (json.noGap, _)], rfl, rfl⟩, ⟨json.noGap, [(json.noGap, _), (json.noGap, _),
    (⟨[space], by decide⟩, _), (json.noGap, _), (json.noGap, _)], rfl, rfl⟩, ?_⟩
  rintro ⟨v, -, h⟩
  cases h

end Texts

end Yalantinglibs.Iguana
