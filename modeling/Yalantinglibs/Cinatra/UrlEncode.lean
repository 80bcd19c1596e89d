import Yalantinglibs.Cinatra.CoroHttpConnection
import Yalantinglibs.Cinatra.Uri

/-!
# Encoded texts in a URL

`url_encode_decode.hpp`, and what depends on it: the values of a query, and the exact routes. A
request is looked up by its method and its target. The target is decoded before, with the rules for
a query, where it has a percent sign in it, but not where the request follows another one in the
buffer.

## Main definitions

* `urlEncode` — the text of a value
* `QueryForm` — pairs that are written into a query
* `SpelledByte` — a byte of a path and how a target writes it
* `FoundAlone`, `FoundBehind` — a request for the target is given to the handler of the path

## Main results

* `urlDecode_urlEncode`, `getDecodeQueryValue_form` — values come back
* `urlDecode_spelled_iff` — the targets that are decoded to their path
* `foundAlone_iff`, `foundBehind_iff` — the targets that lead to their route
-/

set_option autoImplicit false

namespace Yalantinglibs.Cinatra

open Reader

/-! ### Encoding -/

/-- A digit of `hex_chars`. -/
def upperHexDigit (d : ℕ) : UInt8 := if d < 10 then .ofNat (48 + d) else .ofNat (55 + d)

/-- A hexadecimal digit, of upper case or not. -/
def hexDigitOf (upper : Bool) (d : ℕ) : UInt8 := if upper then upperHexDigit d else hexDigit d

/-- The percent sign and two digits, each of upper case or not. -/
def escapeByte (upper upper' : Bool) (c : UInt8) : Bytes :=
  [37, hexDigitOf upper (c.toNat / 16), hexDigitOf upper' (c.toNat % 16)]

/-- `url_encode`. -/
def urlEncode (value : Bytes) : Bytes :=
  value.flatMap fun c => if Uri.isUnreserved c then [c] else escapeByte true true c

theorem hexVal_hexDigitOf : ∀ upper, ∀ d < 16, hexVal (hexDigitOf upper d) = some d := by
  decide

/-! ### Decoding -/

section Decode

variable {c hi lo : UInt8} {rest : Bytes}

theorem urlDecode_cons (h : c ≠ 37) :
    urlDecode (c :: rest) = (if c = 43 then 32 else c) :: urlDecode rest := by
  rw [urlDecode.eq_3 _ _ fun _ _ _ hc => absurd hc h, if_neg h]

theorem urlDecode_percent {h l : ℕ} (hhi : hexVal hi = some h) (hlo : hexVal lo = some l) :
    urlDecode (37 :: hi :: lo :: rest) = .ofNat (16 * h + l) :: urlDecode rest := by
  rw [urlDecode, hhi, hlo]

/-- A percent sign is decoded with two digits behind it, or it ends the text. -/
theorem urlDecode_percent_cases (rest : Bytes) :
    (∃ hi lo rest' b, rest = hi :: lo :: rest' ∧ (hexVal hi).isSome ∧ (hexVal lo).isSome ∧
      urlDecode (37 :: rest) = b :: urlDecode rest') ∨ urlDecode (37 :: rest) = [63] := by
  match rest with
  | [] => exact .inr rfl
  | [_] => exact .inr rfl
  | hi :: lo :: rest =>
    cases hhi : hexVal hi with
    | none =>
      right
      rw [urlDecode, hhi]
    | some h =>
      cases hlo : hexVal lo with
      | none =>
        right
        rw [urlDecode, hhi, hlo]
      | some l =>
        left
        exact ⟨hi, lo, rest, _, rfl, by rw [hhi]; rfl, by rw [hlo]; rfl, urlDecode_percent hhi hlo⟩

theorem urlDecode_escapeByte (upper upper' : Bool) (c : UInt8) (rest : Bytes) :
    urlDecode (escapeByte upper upper' c ++ rest) = c :: urlDecode rest := by
  have hc := c.toNat_lt
  have hhi := hexVal_hexDigitOf upper (c.toNat / 16) (by omega)
  have hlo := hexVal_hexDigitOf upper' (c.toNat % 16) (by omega)
  rw [escapeByte, List.cons_append, List.cons_append, List.cons_append, List.nil_append,
    urlDecode_percent hhi hlo, Nat.div_add_mod, UInt8.ofNat_toNat]

/-- What has neither a percent sign nor a plus sign stays as it is. -/
theorem urlDecode_append {pre : Bytes} (h : ∀ c ∈ pre, c ≠ 37 ∧ c ≠ 43) (rest : Bytes) :
    urlDecode (pre ++ rest) = pre ++ urlDecode rest := by
  induction pre with
  | nil => rfl
  | cons c pre ih =>
    obtain ⟨hpercent, hplus⟩ := h c List.mem_cons_self
    rw [List.cons_append, urlDecode_cons hpercent, if_neg hplus,
      ih fun d hd => h d (List.mem_cons_of_mem c hd), List.cons_append]

end Decode

theorem isUnreserved_ne {c : UInt8} (h : Uri.isUnreserved c = true) :
    c ≠ 37 ∧ c ≠ 43 ∧ c ≠ 38 ∧ c ≠ 61 := by
  have key : ∀ n < 256, Uri.isUnreserved (.ofNat n) = true →
      UInt8.ofNat n ≠ 37 ∧ UInt8.ofNat n ≠ 43 ∧ UInt8.ofNat n ≠ 38 ∧ UInt8.ofNat n ≠ 61 := by
    decide +kernel
  have hc := key c.toNat c.toNat_lt
  rw [UInt8.ofNat_toNat] at hc
  exact hc h

theorem urlDecode_urlEncode (s : Bytes) : urlDecode (urlEncode s) = s := by
  induction s with
  | nil => rfl
  | cons c s ih =>
    rw [urlEncode, List.flatMap_cons]
    split
    · next hc =>
      obtain ⟨hpercent, hplus, -⟩ := isUnreserved_ne hc
      rw [List.singleton_append, urlDecode_cons hpercent, if_neg hplus]
      exact congrArg (c :: ·) ih
    · rw [urlDecode_escapeByte]
      exact congrArg (c :: ·) ih

/-! ### Queries -/

namespace HttpParser

/-- `get_query_value`. -/
def getQueryValue (p : HttpParser) (key : Bytes) : Bytes :=
  ((p.queries.find? fun pair => pair.1 = key).map Prod.snd).getD []

/-- `get_decode_query_value`. -/
def getDecodeQueryValue (p : HttpParser) (key : Bytes) : Bytes :=
  if p.getQueryValue key = [] then [] else urlDecode (p.getQueryValue key)

end HttpParser

/-- Pairs that are written into a query: keys of their own, with nothing in them to be encoded. -/
structure QueryForm where
  pairs : List (Bytes × Bytes)
  nodup : (pairs.map Prod.fst).Nodup
  keys : ∀ pair ∈ pairs, pair.1 ≠ [] ∧ ∀ c ∈ pair.1, Uri.isUnreserved c = true

/-- A pair of a query, with its value encoded. -/
def queryPiece (pair : Bytes × Bytes) : Bytes := pair.1 ++ 61 :: urlEncode pair.2

/-- The query of some pairs. -/
def joinQuery (pairs : List (Bytes × Bytes)) : Bytes := [38].intercalate (pairs.map queryPiece)

/-- A text that is encoded has no separator of a query in it. -/
theorem amp_notMem_urlEncode (s : Bytes) : 38 ∉ urlEncode s := by
  have hdigit : ∀ d < 16, upperHexDigit d ≠ 38 := by decide
  intro h
  obtain ⟨c, -, hc⟩ := List.mem_flatMap.mp h
  have hlt := c.toNat_lt
  have hhi := hdigit (c.toNat / 16) (by omega)
  have hlo := hdigit (c.toNat % 16) (by omega)
  split at hc
  · next hkept =>
    obtain ⟨-, -, hamp, -⟩ := isUnreserved_ne hkept
    exact hamp (List.mem_singleton.mp hc).symm
  · simp only [escapeByte, hexDigitOf, if_true, List.mem_cons, List.not_mem_nil, or_false] at hc
    obtain hc | hc | hc := hc
    · exact absurd hc (by decide)
    · exact hhi hc.symm
    · exact hlo hc.symm

theorem parseQueryPiece_queryPiece {queries : List (Bytes × Bytes)} {pair : Bytes × Bytes}
    (hne : pair.1 ≠ []) (hkey : ∀ c ∈ pair.1, Uri.isUnreserved c = true)
    (hnew : pair.1 ∉ queries.map Prod.fst) :
    parseQueryPiece queries (queryPiece pair) = queries ++ [(pair.1, urlEncode pair.2)] := by
  have hno : ∀ c ∈ pair.1, decide (c ≠ 61) = true := by
    intro c hc
    exact decide_eq_true (isUnreserved_ne (hkey c hc)).2.2.2
  have htake : (queryPiece pair).takeWhile (· ≠ 61) = pair.1 := by
    rw [queryPiece, List.takeWhile_append_of_pos hno, List.takeWhile_cons_of_neg (by simp),
      List.append_nil]
  have hdrop : (queryPiece pair).dropWhile (· ≠ 61) = 61 :: urlEncode pair.2 := by
    rw [queryPiece, List.dropWhile_append_of_pos hno, List.dropWhile_cons_of_neg (by simp)]
  simp only [parseQueryPiece, htake, hdrop, if_neg hne, emplace, if_neg hnew, List.tail_cons]

/-- The pairs are added one after the other. -/
theorem foldl_queryPiece {pairs : List (Bytes × Bytes)}
    (hkeys : ∀ pair ∈ pairs, pair.1 ≠ [] ∧ ∀ c ∈ pair.1, Uri.isUnreserved c = true)
    (queries : List (Bytes × Bytes))
    (hnodup : (queries.map Prod.fst ++ pairs.map Prod.fst).Nodup) :
    (pairs.map queryPiece).foldl parseQueryPiece queries =
      queries ++ pairs.map fun pair => (pair.1, urlEncode pair.2) := by
  induction pairs generalizing queries with
  | nil => simp
  | cons pair pairs ih =>
    obtain ⟨hne, hkey⟩ := hkeys pair List.mem_cons_self
    have hnew : pair.1 ∉ queries.map Prod.fst := by
      intro hmem
      exact (List.nodup_append.mp hnodup).2.2 _ hmem _ List.mem_cons_self rfl
    rw [List.map_cons, List.foldl_cons, parseQueryPiece_queryPiece hne hkey hnew,
      ih (fun p hp => hkeys p (List.mem_cons_of_mem pair hp))]
    · simp
    · simpa using hnodup

/-- Of pairs with keys of their own, the one with a key is found by it. -/
theorem find?_of_nodup {queries : List (Bytes × Bytes)} (h : (queries.map Prod.fst).Nodup)
    {pair : Bytes × Bytes} (hpair : pair ∈ queries) :
    queries.find? (fun q => q.1 = pair.1) = some pair := by
  induction queries with
  | nil => cases hpair
  | cons q queries ih =>
    rw [List.map_cons, List.nodup_cons] at h
    obtain rfl | hpair := List.mem_cons.mp hpair
    · rw [List.find?_cons_of_pos (by simp)]
    · have hne : q.1 ≠ pair.1 := by
        intro heq
        exact h.1 (heq ▸ List.mem_map_of_mem hpair)
      rw [List.find?_cons_of_neg (by simpa using hne), ih h.2 hpair]

theorem parseQuery_form (form : QueryForm) :
    parseQuery [] (joinQuery form.pairs) =
      form.pairs.map fun pair => (pair.1, urlEncode pair.2) := by
  obtain ⟨pairs, hnodup, hkeys⟩ := form
  cases pairs with
  | nil => rfl
  | cons first others =>
    have hsplit : (joinQuery (first :: others)).splitOn 38 = (first :: others).map queryPiece := by
      apply List.splitOn_intercalate
      · intro piece hpiece
        obtain ⟨pair, hpair, rfl⟩ := List.mem_map.mp hpiece
        rw [queryPiece, List.mem_append, List.mem_cons, not_or, not_or]
        refine ⟨fun hmem => ?_, by decide, amp_notMem_urlEncode _⟩
        exact (isUnreserved_ne ((hkeys pair hpair).2 _ hmem)).2.2.1 rfl
      · exact List.cons_ne_nil _ _
    rw [parseQuery, hsplit, foldl_queryPiece hkeys [] (by simpa using hnodup), List.nil_append]

theorem getDecodeQueryValue_form (form : QueryForm) {pair : Bytes × Bytes}
    (hpair : pair ∈ form.pairs) (p : HttpParser)
    (hp : p.queries = parseQuery [] (joinQuery form.pairs)) :
    p.getDecodeQueryValue pair.1 = pair.2 := by
  rw [parseQuery_form] at hp
  have hnodup : (p.queries.map Prod.fst).Nodup := by
    rw [hp, List.map_map]
    exact form.nodup
  have hmem : (pair.1, urlEncode pair.2) ∈ p.queries := by
    rw [hp]
    exact List.mem_map_of_mem (f := fun pair => (pair.1, urlEncode pair.2)) hpair
  have hvalue : p.getQueryValue pair.1 = urlEncode pair.2 := by
    have hfind := find?_of_nodup hnodup hmem
    rw [HttpParser.getQueryValue, hfind]
    rfl
  rw [HttpParser.getDecodeQueryValue, hvalue]
  split
  · next hnil =>
    rw [← urlDecode_urlEncode pair.2, hnil]
    rfl
  · exact urlDecode_urlEncode pair.2

/-! ### Targets of a route -/

/-- A byte of the path of a route, and how a target writes it. -/
structure SpelledByte where
  byte : UInt8
  /-- Whether each of the two digits is of upper case, where the byte is escaped. -/
  digits : Option (Bool × Bool)
  isPathByte : (!isControl byte && byte ≠ 32 && byte ≠ 63) = true
  deriving DecidableEq

namespace SpelledByte

def text (b : SpelledByte) : Bytes :=
  match b.digits with
  | none => [b.byte]
  | some (upper, upper') => escapeByte upper upper' b.byte

/-- A byte that decoding leaves as it is, or that is escaped. -/
def Safe (b : SpelledByte) : Prop := b.digits = none → b.byte ≠ 37 ∧ b.byte ≠ 43

end SpelledByte

/-- A path, whose first byte is always a slash. -/
def pathOf (bs : List SpelledByte) : Bytes := 47 :: bs.map SpelledByte.byte

/-- The target that spells a path. -/
def targetOf (bs : List SpelledByte) : Bytes := 47 :: bs.flatMap SpelledByte.text

section Spelled

variable {b : SpelledByte} {bs : List SpelledByte}

/-- A hexadecimal digit of a target is a byte that is not escaped. -/
theorem exists_of_hexVal {c : UInt8} {rest : Bytes} (h : bs.flatMap SpelledByte.text = c :: rest)
    (hc : (hexVal c).isSome) :
    ∃ bs' : List SpelledByte,
      rest = bs'.flatMap SpelledByte.text ∧ bs.length = bs'.length + 1 := by
  cases bs with
  | nil => cases h
  | cons b bs =>
    rw [List.flatMap_cons, SpelledByte.text] at h
    cases hdigits : b.digits with
    | none =>
      rw [hdigits] at h
      cases h
      exact ⟨bs, rfl, rfl⟩
    | some digits =>
      rw [hdigits] at h
      cases h
      cases hc

/-- Decoding makes a target no longer than the path. -/
theorem length_urlDecode_le (bs : List SpelledByte) :
    (urlDecode (bs.flatMap SpelledByte.text)).length ≤ bs.length := by
  induction hlen : bs.length using Nat.strong_induction_on generalizing bs with
  | _ n ih =>
    cases bs with
    | nil => exact Nat.zero_le _
    | cons b bs =>
      rw [List.length_cons] at hlen
      have hrest := ih bs.length (by omega) bs rfl
      rw [List.flatMap_cons, SpelledByte.text]
      cases b.digits with
      | some digits =>
        rw [urlDecode_escapeByte, List.length_cons]
        omega
      | none =>
        rw [List.singleton_append]
        by_cases hpercent : b.byte = 37
        · rw [hpercent]
          obtain ⟨hi, lo, rest, d, heq, hhi, hlo, hdecode⟩ | hdecode :=
            urlDecode_percent_cases (bs.flatMap SpelledByte.text)
          · -- the two digits are bytes of the path as well
            obtain ⟨bs', heq', hlen'⟩ := exists_of_hexVal heq hhi
            obtain ⟨bs'', rfl, hlen''⟩ := exists_of_hexVal heq'.symm hlo
            have hrest' := ih bs''.length (by omega) bs'' rfl
            rw [hdecode, List.length_cons]
            omega
          · rw [hdecode, List.length_singleton]
            omega
        · rw [urlDecode_cons hpercent, List.length_cons]
          omega

/-- The targets that are decoded to their path. -/
theorem urlDecode_spelled_iff (bs : List SpelledByte) :
    urlDecode (bs.flatMap SpelledByte.text) = bs.map SpelledByte.byte ↔ ∀ b ∈ bs, b.Safe := by
  induction bs with
  | nil => simp [urlDecode]
  | cons b bs ih =>
    rw [List.forall_mem_cons, ← ih, List.flatMap_cons, SpelledByte.text, List.map_cons]
    cases hdigits : b.digits with
    | some digits =>
      have hsafe : b.Safe := fun hnone => absurd (hdigits.symm.trans hnone) (by simp)
      rw [urlDecode_escapeByte, List.cons.injEq]
      exact ⟨fun h => ⟨hsafe, h.2⟩, fun h => ⟨rfl, h.2⟩⟩
    | none =>
      rw [List.singleton_append]
      by_cases hpercent : b.byte = 37
      · -- what is decoded ends here, or is shorter than the path
        apply iff_of_false
        · rw [hpercent]
          intro h
          obtain ⟨hi, lo, rest, d, heq, hhi, hlo, hdecode⟩ | hdecode :=
            urlDecode_percent_cases (bs.flatMap SpelledByte.text)
          · obtain ⟨bs', heq', hlen'⟩ := exists_of_hexVal heq hhi
            obtain ⟨bs'', rfl, hlen''⟩ := exists_of_hexVal heq'.symm hlo
            have hle := length_urlDecode_le bs''
            have hlength := congrArg List.length (hdecode.symm.trans h)
            rw [List.length_cons, List.length_cons, List.length_map] at hlength
            omega
          · rw [hdecode, List.cons.injEq] at h
            exact absurd h.1 (by decide)
        · intro h
          exact (h.1 hdigits).1 hpercent
      · rw [urlDecode_cons hpercent, List.cons.injEq]
        by_cases hplus : b.byte = 43
        · apply iff_of_false
          · rw [if_pos hplus, hplus]
            intro h
            exact absurd h.1 (by decide)
          · intro h
            exact (h.1 hdigits).2 hplus
        · rw [if_neg hplus]
          exact ⟨fun h => ⟨fun _ => ⟨hpercent, hplus⟩, h.2⟩, fun h => ⟨rfl, h.2⟩⟩

/-- The targets with nothing in them to be decoded. -/
theorem percent_notMem_iff (bs : List SpelledByte) :
    37 ∉ targetOf bs ↔ ∀ b ∈ bs, b.digits = none ∧ b.byte ≠ 37 := by
  have htext : ∀ b : SpelledByte, 37 ∉ b.text ↔ b.digits = none ∧ b.byte ≠ 37 := by
    intro b
    rw [SpelledByte.text]
    cases b.digits with
    | none => simp [eq_comm]
    | some digits => simp [escapeByte]
  rw [targetOf, List.mem_cons, not_or, List.mem_flatMap]
  simp only [← htext, not_exists, not_and]
  exact ⟨fun h => h.2, fun h => ⟨by decide, h⟩⟩

/-- Each byte that is escaped makes the target longer by two. -/
theorem length_spelled (bs : List SpelledByte) :
    (bs.flatMap SpelledByte.text).length = bs.length + 2 * bs.countP fun b => b.digits.isSome := by
  induction bs with
  | nil => rfl
  | cons b bs ih =>
    rw [List.flatMap_cons, List.length_append, ih, List.countP_cons, List.length_cons,
      SpelledByte.text]
    cases b.digits with
    | none =>
      simp
      omega
    | some digits =>
      simp [escapeByte]
      omega

/-- A target is the path itself where nothing in it is escaped. -/
theorem targetOf_eq_iff (bs : List SpelledByte) :
    targetOf bs = pathOf bs ↔ ∀ b ∈ bs, b.digits = none := by
  rw [targetOf, pathOf, List.cons.injEq]
  constructor
  · intro h b hb
    have hlength := congrArg List.length h.2
    rw [List.length_map, length_spelled] at hlength
    have hcount : bs.countP (fun b => b.digits.isSome) = 0 := by omega
    have hnone := List.countP_eq_zero.mp hcount b hb
    simpa using hnone
  · intro h
    refine ⟨rfl, ?_⟩
    induction bs with
    | nil => rfl
    | cons b bs ih =>
      rw [List.forall_mem_cons] at h
      rw [List.flatMap_cons, List.map_cons, ih h.2, SpelledByte.text, h.1]
      rfl

end Spelled

/-! ### Requests for a route -/

/-- A head is read, with a method and a target. -/
def ReadsHead (data : Bytes) (method : HttpMethod) (target : Bytes) (p : HttpParser) : Prop :=
  ∃ before : HttpParser, ∃ n, before.parseRequest data = (p, n) ∧ 0 < n ∧
    p.method = methodName method ∧ p.fullUrl = target

/-- The key of an exact route. -/
def exactKey (method : HttpMethod) (path : Bytes) : Bytes := methodName method ++ 32 :: path

/-- The answer to a request that follows in the buffer, for what its handler does. -/
def HttpServer.answerBy (server : HttpServer) (needDate : Bool) (d : Dispatched) : Answer :=
  let response := (({} : CoroHttpResponse).apply (.needDateHead needDate)).applyAll d.calls
  ⟨d.seen, (response.buildRespStr server.clock).1⟩

/-- Read on its own, each request for the target is given to the handler of the path. -/
def FoundAlone (method : HttpMethod) (bs : List SpelledByte) : Prop :=
  ∀ (data : Bytes) (p : HttpParser), ReadsHead data method (targetOf bs) p →
    ∀ (router : CoroHttpRouter) (handler : Handler) (request : CoroHttpRequest),
      router.exact (exactKey method (pathOf bs)) = some handler →
        router.dispatch p request = Dispatched.call ⟨request, [], []⟩ p handler

/-- Behind another request in the buffer, it is answered by the handler of the path. -/
def FoundBehind (method : HttpMethod) (bs : List SpelledByte) : Prop :=
  ∀ (data : Bytes) (p : HttpParser), ReadsHead data method (targetOf bs) p →
    ∀ (server : HttpServer) (handler : Handler) (needDate : Bool),
      server.router.exact (exactKey method (pathOf bs)) = some handler →
        server.answerNext needDate p =
          server.answerBy needDate (Dispatched.call ⟨{}, [], []⟩ p handler)

section Route

variable {method : HttpMethod} {bs : List SpelledByte} {data : Bytes} {p : HttpParser}

theorem mem_targetOf {c : UInt8} (h : c ∈ targetOf bs) : isControl c = false ∧ c ≠ 32 ∧ c ≠ 63 := by
  have hdigit : ∀ upper, ∀ d < 16, isControl (hexDigitOf upper d) = false ∧
      hexDigitOf upper d ≠ 32 ∧ hexDigitOf upper d ≠ 63 := by decide
  obtain rfl | h := List.mem_cons.mp h
  · decide
  · obtain ⟨b, -, hc⟩ := List.mem_flatMap.mp h
    have hlt := b.byte.toNat_lt
    rw [SpelledByte.text] at hc
    cases hdigits : b.digits with
    | none =>
      rw [hdigits, List.mem_singleton] at hc
      rw [hc]
      simpa [and_assoc] using b.isPathByte
    | some digits =>
      rw [hdigits] at hc
      simp only [escapeByte, List.mem_cons, List.not_mem_nil, or_false] at hc
      obtain rfl | rfl | rfl := hc
      · decide
      · exact hdigit _ _ (by omega)
      · exact hdigit _ _ (by omega)

/-- A target has no query, so the parser keeps all of it. -/
theorem url_of_readsHead (h : ReadsHead data method (targetOf bs) p) : p.url = targetOf bs := by
  obtain ⟨before, n, hparse, hn, -, hurl⟩ := h
  rw [HttpParser.parseRequest] at hparse
  split at hparse
  · next stop hstop =>
    obtain ⟨-, rfl⟩ := Prod.mk.inj hparse
    cases stop <;> exact absurd hn (by decide)
  · obtain ⟨rfl, -⟩ := Prod.mk.inj hparse
    rw [HttpParser.withRequest] at hurl ⊢
    dsimp only at hurl ⊢
    rw [hurl, List.takeWhile_eq_self_iff.mpr, ite_self]
    intro c hc
    simpa using (mem_targetOf hc).2.2

theorem routeKey_of_readsHead (h : ReadsHead data method (targetOf bs) p) :
    routeKey p = exactKey method (targetOf bs) := by
  rw [routeKey, url_of_readsHead h]
  obtain ⟨_, _, -, -, hmethod, -⟩ := h
  rw [hmethod, exactKey]

theorem exactKey_inj (method : HttpMethod) {path path' : Bytes} :
    exactKey method path = exactKey method path' ↔ path = path' := by
  rw [exactKey, exactKey, List.append_cancel_left_eq, List.cons.injEq]
  exact and_iff_right rfl

/-- Decoding leaves the method and the slash as they are. -/
theorem urlDecode_exactKey (method : HttpMethod) (bs : List SpelledByte) :
    urlDecode (exactKey method (targetOf bs)) =
      exactKey method (47 :: urlDecode (bs.flatMap SpelledByte.text)) := by
  have hmethod : ∀ c ∈ methodName method, c ≠ 37 ∧ c ≠ 43 := by
    cases method <;> decide
  rw [exactKey, urlDecode_append hmethod, urlDecode_cons (by decide), targetOf,
    urlDecode_cons (by decide), exactKey]
  rfl

/-- The key that is looked up is that of the route. -/
theorem lookupKey_eq_iff (h : ReadsHead data method (targetOf bs) p) :
    lookupKey p = exactKey method (pathOf bs) ↔
      (∀ b ∈ bs, b.digits = none ∧ b.byte ≠ 37) ∨ ∀ b ∈ bs, b.Safe := by
  rw [lookupKey, routeKey_of_readsHead h, url_of_readsHead h]
  by_cases hpercent : 37 ∈ targetOf bs
  · have hnot : ¬ ∀ b ∈ bs, b.digits = none ∧ b.byte ≠ 37 := by
      rw [← percent_notMem_iff, not_not]
      exact hpercent
    rw [if_pos (by simpa using hpercent), urlDecode_exactKey, exactKey_inj, pathOf, List.cons.injEq,
      urlDecode_spelled_iff]
    exact ⟨fun h => .inr h.2, fun h => ⟨rfl, h.resolve_left hnot⟩⟩
  · have hplain := (percent_notMem_iff bs).mp hpercent
    rw [if_neg (by simpa using hpercent), exactKey_inj, targetOf_eq_iff]
    exact ⟨fun _ => .inl hplain, fun _ b hb => (hplain b hb).1⟩

/-! ### A request with nothing but its line -/

/-- The line of a request, and no fields. -/
def requestText (method : HttpMethod) (target : Bytes) : Bytes :=
  exactKey method (target ++ 32 :: ascii "HTTP/1.1" ++ twoCrcf)

theorem advanceToken_append {tok : Bytes} (h : ∀ c ∈ tok, isControl c = false ∧ c ≠ 32)
    (rest : Bytes) : advanceToken (tok ++ 32 :: rest) = .ok (tok, rest) := by
  rw [advanceToken, bind_of_ok (takeUntil_append (fun c hc => by simp [h c hc]) (by decide) rest)]
  rfl

theorem phrParseRequest_requestText (method : HttpMethod) (bs : List SpelledByte) (room : ℕ)
    (flags : ConnectionFlags) :
    phrParseRequest (room + 1) flags (requestText method (targetOf bs)) =
      .ok ((⟨methodName method, targetOf bs, (targetOf bs).contains 63, 1, []⟩, flags), []) := by
  have hmethod : ∀ c ∈ methodName method, isControl c = false ∧ c ≠ 32 := by
    cases method <;> decide
  have heol : ∀ rest, eol (methodName method ++ rest) = .ok (false, methodName method ++ rest) := by
    intro rest
    cases method <;> rfl
  have hpath : ∀ c ∈ targetOf bs, isControl c = false ∧ c ≠ 32 := by
    intro c hc
    exact ⟨(mem_targetOf hc).1, (mem_targetOf hc).2.1⟩
  have hversion : parseHttpVersion (ascii "HTTP/1.1" ++ twoCrcf) = .ok (1, twoCrcf) := by decide
  have hread : advancePath (targetOf bs ++ 32 :: (ascii "HTTP/1.1" ++ twoCrcf)) =
      .ok ((targetOf bs, (targetOf bs).contains 63), ascii "HTTP/1.1" ++ twoCrcf) :=
    map_eq_ok_iff.mpr ⟨_, advanceToken_append hpath _, rfl⟩
  rw [requestText, exactKey, List.append_assoc, List.cons_append, phrParseRequest,
    bind_of_ok (heol _), bind_of_ok (advanceToken_append hmethod _), bind_of_ok hread]
  dsimp only
  rw [bind_of_ok hversion]
  rfl

theorem exists_readsHead (method : HttpMethod) (bs : List SpelledByte) :
    ∃ data p, ReadsHead data method (targetOf bs) p := by
  have hparse := phrParseRequest_requestText method bs 99 {}
  refine ⟨requestText method (targetOf bs), _, {}, _, HttpParser.parseRequest_of_ok hparse, ?_,
    rfl, rfl⟩
  rw [List.length_nil, requestText, exactKey, List.length_append, List.length_cons]
  push_cast
  omega

/-! ### The handler of a route -/

/-- A router with one exact route and no others. -/
def soleRouter (key : Bytes) (handler : Handler) : CoroHttpRouter where
  mapHandles key' := if key' = key then some handler else none
  coroHandles _ := none
  routerTree := .mk [] {} [] []
  coroRouterTree := .mk [] {} [] []
  coroRegexHandles := []
  regexHandles := []
  defaultHandler := none

/-- A request that is not found is treated alike, whatever the handler of the route. -/
theorem dispatch_soleRouter {key : Bytes} {request : CoroHttpRequest} (h : lookupKey p ≠ key)
    (handler handler' : Handler) :
    (soleRouter key handler).dispatch p request = (soleRouter key handler').dispatch p request := by
  simp [CoroHttpRouter.dispatch, CoroHttpRouter.exact, CoroHttpRouter.dispatchRegex, soleRouter, h]

theorem foundAlone_iff (method : HttpMethod) (bs : List SpelledByte) :
    FoundAlone method bs ↔
      (∀ b ∈ bs, b.digits = none ∧ b.byte ≠ 37) ∨ ∀ b ∈ bs, b.Safe := by
  constructor
  · intro h
    obtain ⟨data, p, hread⟩ := exists_readsHead method bs
    rw [← lookupKey_eq_iff hread]
    by_contra hne
    have hsole : ∀ handler : Handler,
        (soleRouter (exactKey method (pathOf bs)) handler).dispatch p {} =
          Dispatched.call ⟨{}, [], []⟩ p handler := by
      intro handler
      apply h data p hread
      simp [CoroHttpRouter.exact, soleRouter]
    have hcalls := (hsole fun _ => ⟨[], false⟩).symm.trans
      ((dispatch_soleRouter hne _ _).trans (hsole fun _ => ⟨[.setStatus .notFound], false⟩))
    simpa [Dispatched.call] using congrArg Dispatched.calls hcalls
  · intro h data p hread router handler request hexact
    rw [CoroHttpRouter.dispatch, (lookupKey_eq_iff hread).mpr h, hexact]

theorem foundBehind_iff (method : HttpMethod) (bs : List SpelledByte) :
    FoundBehind method bs ↔ ∀ b ∈ bs, b.digits = none := by
  rw [← targetOf_eq_iff]
  constructor
  · intro h
    obtain ⟨data, p, hread⟩ := exists_readsHead method bs
    rw [← exactKey_inj method]
    by_contra hne
    have hsole := h data p hread
      { router := soleRouter (exactKey method (pathOf bs)) fun _ => ⟨[], false⟩
        clock := ⟨[], fun _ => []⟩
        acceptKey := id } (fun _ => ⟨[], false⟩) false (by simp [CoroHttpRouter.exact, soleRouter])
    have hseen := congrArg Answer.seen hsole
    simp [HttpServer.answerNext, HttpServer.answerBy, CoroHttpRouter.exact, soleRouter,
      routeKey_of_readsHead hread, hne, Dispatched.call] at hseen
  · intro h data p hread server handler needDate hexact
    have hkey : routeKey p = exactKey method (pathOf bs) := by
      rw [routeKey_of_readsHead hread, h]
    rw [HttpServer.answerNext, hkey, hexact]
    rfl

end Route

/-- Values and queries always come back. A target leads to its route on its own where nothing in it
has to be decoded, or where it has no plus or percent sign that is not escaped; behind another
request it does so where nothing in it is escaped. -/
theorem urlTransparent (s : Bytes) (form : QueryForm) (p : HttpParser) (method : HttpMethod)
    (bs : List SpelledByte) :
    urlDecode (urlEncode s) = s ∧
      (∀ pair ∈ form.pairs,
        { p with queries := parseQuery [] (joinQuery form.pairs) }.getDecodeQueryValue pair.1 =
          pair.2) ∧
      (FoundAlone method bs ↔
        (∀ b ∈ bs, b.digits = none ∧ b.byte ≠ 37) ∨ ∀ b ∈ bs, b.Safe) ∧
      (FoundBehind method bs ↔ ∀ b ∈ bs, b.digits = none) :=
  ⟨urlDecode_urlEncode s, fun _ hpair => getDecodeQueryValue_form form hpair _ rfl,
    foundAlone_iff method bs, foundBehind_iff method bs⟩

/-- `/c++%23` is not found as `/c++#`, and `/%C3%BC` behind another request not as the path with
these two bytes. -/
theorem not_urlTransparent :
    ¬ FoundAlone .get [⟨99, none, by decide⟩, ⟨43, none, by decide⟩, ⟨43, none, by decide⟩,
        ⟨35, some (true, true), by decide⟩] ∧
      ¬ FoundBehind .get
        [⟨195, some (true, true), by decide⟩, ⟨188, some (true, true), by decide⟩] := by
  constructor
  · rw [foundAlone_iff]
    intro h
    obtain h | h := h
    · exact absurd (h _ (.tail _ (.tail _ (.tail _ (.head _))))).1 (by decide)
    · exact (h _ (.tail _ (.head _)) rfl).2 rfl
  · rw [foundBehind_iff]
    intro h
    exact absurd (h _ (.head _)) (by decide)

end Yalantinglibs.Cinatra
