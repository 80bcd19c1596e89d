import Yalantinglibs.Cinatra.HttpParser
import Yalantinglibs.Data.BlockScan

/-!
# Parsing a request with vector instructions

The parser of `picohttpparser.h` with `CINATRA_SSE`. Each of its loops over the characters starts
with `findchar_fast`, which passes over whole blocks of sixteen bytes up to a character of some
ranges. What a loop notes of a character, such as a question mark, is not noted of those that are
passed over.

## Main definitions

* `Sse.phrParseRequest`, `HttpParser.parseRequestSse` — the parser
* `SplitsTarget` — the path and the pairs of the query are those of the target
* `ParsesAlike` — the two parsers leave the same, and split targets
* `SeesQuery` — there is no query in the target, or a question mark behind all whole blocks

## Main results

* `phrParseRequest_sse` — all but the note of a query is the same
* `splitsTarget_parseRequest` — without vector instructions, targets are split
* `parsesAlike_iff` — when the two parsers agree
-/

set_option autoImplicit false

namespace Yalantinglibs.Cinatra

open Reader

/-! ### Ranges -/

/-- A character is in one of some ranges, each of which is given by its ends. -/
def inRanges : Bytes → UInt8 → Bool
  | lo :: hi :: ranges, c => (lo ≤ c && c ≤ hi) || inRanges ranges c
  | _, _ => false

/-- `ranges1` of `get_token_to_eol`: controls other than the tabulator. -/
def eolRanges : Bytes := [0, 8, 10, 31, 127, 127]

/-- `ranges1` of `parse_headers`. -/
def nameRanges : Bytes :=
  [0, 32, 34, 34, 40, 41, 44, 44, 47, 47, 58, 64, 91, 93, 123, 255]

/-- `ranges2`: controls and the space. -/
def ranges2 : Bytes := [0, 32, 127, 127]

/-- `findchar_fast`. -/
def findcharFast (ranges buf : Bytes) : ℕ × Bool := blockScan 16 (inRanges ranges) buf

/-- The characters before one that ends them, after `findchar_fast`. -/
def scanFast (ranges : Bytes) (ends fails : UInt8 → Bool) : HeadReader Bytes :=
  takeUntilFast 16 (inRanges ranges) .incomplete .failed ends fails

/-! ### The parser -/

namespace Sse

/-- `ADVANCE_TOKEN`. -/
def advanceToken : HeadReader Bytes := do
  let tok ← scanFast ranges2 (· = 32) isControl
  skipOne .incomplete
  return tok

/-- `ADVANCE_PATH`: a question mark is noted behind what is passed over. -/
def advancePath : HeadReader (Bytes × Bool) := fun buf =>
  let skipped := (findcharFast ranges2 buf).1
  ((fun path => (path, (path.drop skipped).contains 63)) <$> advanceToken) buf

/-- `get_token_to_eol`. -/
def getTokenToEol : HeadReader Bytes := do
  let tok ← scanFast eolRanges isValueEnd fun _ => false
  if ← eol then return tok else stop .failed

def headerName : HeadReader Bytes := do
  let name ← scanFast nameRanges (· = 58) fun c => !tokenChar c
  if name = [] then stop .failed
  else
    skipOne .incomplete
    return name

def parseField (first : Bool) : HeadReader HttpHeader := do
  let blank ← peekBlank
  if !first && blank then
    return ⟨[], ← getTokenToEol⟩
  else
    let name ← headerName
    let _ ← takeUntil .incomplete .failed (fun c => !isBlank c) fun _ => false
    return ⟨name, ← getTokenToEol⟩

/-- `parse_headers`. -/
def parseHeaders : ℕ → List HttpHeader → ConnectionFlags →
    HeadReader (List HttpHeader × ConnectionFlags)
  | 0, headers, flags => do
    if ← eol then return (headers, flags) else stop .failed
  | room + 1, headers, flags => do
    if ← eol then return (headers, flags)
    else
      let header ← parseField headers.isEmpty
      parseHeaders room (headers ++ [header]) (flags.or (connectionFlags header))

/-- `phr_parse_request`. -/
def phrParseRequest (maxHeaders : ℕ) (flags : ConnectionFlags) :
    HeadReader (RequestHead × ConnectionFlags) := do
  let _ ← eol
  let method ← advanceToken
  let (path, hasQuery) ← advancePath
  let minorVersion ← parseHttpVersion
  if ← eol then
    let (headers, flags) ← parseHeaders maxHeaders [] flags
    return (⟨method, path, hasQuery, minorVersion, headers⟩, flags)
  else stop .failed

end Sse

/-- The fields and the flags that the loop over the fields leaves, whether it comes to its end or
not. -/
def headersLeft (field : Bool → HeadReader HttpHeader) :
    ℕ → List HttpHeader → ConnectionFlags → Bytes → List HttpHeader × ConnectionFlags
  | 0, headers, flags, _ => (headers, flags)
  | room + 1, headers, flags, buf =>
    match eol buf with
    | .ok (false, rest) =>
      match field headers.isEmpty rest with
      | .ok (header, rest) =>
        headersLeft field room (headers ++ [header]) (flags.or (connectionFlags header)) rest
      | .error _ => (headers, flags)
    | _ => (headers, flags)

/-- The fields and the flags that the parser leaves. The target is read like a token. -/
def requestLeft (token : HeadReader Bytes) (field : Bool → HeadReader HttpHeader) (room : ℕ)
    (flags : ConnectionFlags) (data : Bytes) : List HttpHeader × ConnectionFlags :=
  let line : HeadReader Bool := do
    let _ ← eol
    let _ ← token
    let _ ← token
    let _ ← parseHttpVersion
    eol
  match line data with
  | .ok (true, rest) => headersLeft field room [] flags rest
  | _ => ([], flags)

/-- `parse_request` with vector instructions. -/
def HttpParser.parseRequestSse (p : HttpParser) (data : Bytes) : HttpParser × ℤ :=
  match Sse.phrParseRequest maxHttpHeaderFieldSize p.flags data with
  | .error stop => ({ p with headerLen := stop.code }, stop.code)
  | .ok ((head, flags), rest) =>
    (p.withRequest head flags (data.length - rest.length), data.length - rest.length)

/-! ### The loops -/

theorem inRanges_ranges2 {c : UInt8} : inRanges ranges2 c = true ↔ c = 32 ∨ isControl c = true := by
  have key : ∀ n < 256, inRanges ranges2 (.ofNat n) = true ↔
      UInt8.ofNat n = 32 ∨ isControl (.ofNat n) = true := by decide +kernel
  have hkey := key c.toNat c.toNat_lt
  rwa [UInt8.ofNat_toNat] at hkey

theorem scanFast_ranges2 : scanFast ranges2 (· = 32) isControl =
    takeUntil .incomplete .failed (· = 32) isControl := by
  apply takeUntilFast_eq
  intro c hc
  exact inRanges_ranges2.mpr (hc.imp_left of_decide_eq_true)

theorem scanFast_eolRanges : (scanFast eolRanges isValueEnd fun _ => false) =
    takeUntil .incomplete .failed isValueEnd fun _ => false := by
  have key : ∀ n < 256, isValueEnd (.ofNat n) = true → inRanges eolRanges (.ofNat n) = true := by
    decide +kernel
  apply takeUntilFast_eq
  intro c hc
  have hkey := key c.toNat c.toNat_lt
  rw [UInt8.ofNat_toNat] at hkey
  exact hkey (hc.resolve_right Bool.false_ne_true)

theorem scanFast_nameRanges : (scanFast nameRanges (· = 58) fun c => !tokenChar c) =
    takeUntil .incomplete .failed (· = 58) fun c => !tokenChar c := by
  have key : ∀ n < 256, decide (UInt8.ofNat n = 58) = true ∨ (!tokenChar (.ofNat n)) = true →
      inRanges nameRanges (.ofNat n) = true := by decide +kernel
  apply takeUntilFast_eq
  intro c hc
  have hkey := key c.toNat c.toNat_lt
  rw [UInt8.ofNat_toNat] at hkey
  exact hkey hc

theorem Sse.advanceToken_eq : Sse.advanceToken = Cinatra.advanceToken := by
  rw [Sse.advanceToken, scanFast_ranges2]
  rfl

theorem Sse.getTokenToEol_eq : Sse.getTokenToEol = Cinatra.getTokenToEol := by
  rw [Sse.getTokenToEol, scanFast_eolRanges]
  rfl

theorem Sse.headerName_eq : Sse.headerName = Cinatra.headerName := by
  rw [Sse.headerName, scanFast_nameRanges]
  rfl

theorem Sse.parseField_eq : Sse.parseField = Cinatra.parseField := by
  funext first
  rw [Sse.parseField, Sse.getTokenToEol_eq, Sse.headerName_eq]
  rfl

theorem Sse.parseHeaders_eq : Sse.parseHeaders = Cinatra.parseHeaders := by
  funext room
  induction room with
  | zero => rfl
  | succ room ih =>
    funext headers flags
    rw [Sse.parseHeaders, Sse.parseField_eq, ih]
    rfl

/-- The same fields and flags are left, whatever becomes of the head. -/
theorem requestLeft_sse (room : ℕ) (flags : ConnectionFlags) (data : Bytes) :
    requestLeft Sse.advanceToken Sse.parseField room flags data =
      requestLeft advanceToken parseField room flags data := by
  rw [Sse.advanceToken_eq, Sse.parseField_eq]

/-! ### The target -/

section Target

variable {buf rest path : Bytes}

/-- The bytes from the target on. -/
def targetLength (data : Bytes) : ℕ :=
  match (eol >>= fun _ => advanceToken) data with
  | .ok (_, buf) => buf.length
  | .error _ => 0

/-- What is taken as a token stands in front of a space. -/
theorem eq_append_of_advanceToken (h : advanceToken buf = .ok (path, rest)) :
    buf = path ++ 32 :: rest ∧ ∀ c ∈ path, ¬ inRanges ranges2 c = true := by
  obtain ⟨tok, mid, htake, h⟩ := bind_eq_ok_iff.mp h
  obtain ⟨hbuf, c, tail, rfl, hc⟩ := exists_eq_append_of_takeUntil htake
  cases h
  constructor
  · rw [hbuf, of_decide_eq_true hc]
  · intro c hc hrange
    obtain ⟨hends, hfails⟩ := mem_of_takeUntil htake c hc
    obtain hspace | hcontrol := inRanges_ranges2.mp hrange
    · rw [hspace] at hends
      cases hends
    · rw [hcontrol] at hfails
      cases hfails

/-- Behind what `findchar_fast` passes over, there is as much of a target as behind the whole
blocks: it stops at the end of the target, or behind them. -/
theorem drop_findcharFast (h : advanceToken buf = .ok (path, rest)) :
    path.drop (findcharFast ranges2 buf).1 = path.drop (16 * (buf.length / 16)) := by
  obtain ⟨hbuf, hpath⟩ := eq_append_of_advanceToken h
  cases hfound : (findcharFast ranges2 buf).2 with
  | false => rw [findcharFast, blockScan_notFound hfound]
  | true =>
    obtain ⟨hlt, c, behind, hdrop, hc⟩ := blockScan_found hfound
    have hle : path.length ≤ (findcharFast ranges2 buf).1 := by
      by_contra hshort
      have hdrop' : buf.drop (findcharFast ranges2 buf).1 =
          path.drop (findcharFast ranges2 buf).1 ++ 32 :: rest := by
        generalize (findcharFast ranges2 buf).1 = n at hshort
        rw [hbuf, List.drop_append_of_le_length (Nat.le_of_not_le hshort)]
      obtain ⟨d, tail, htail⟩ := List.exists_cons_of_ne_nil
        (mt List.drop_eq_nil_iff.mp hshort)
      rw [htail, findcharFast, hdrop, List.cons_append] at hdrop'
      cases hdrop'
      exact hpath c (List.mem_of_mem_drop (htail ▸ List.mem_cons_self)) hc
    rw [List.drop_eq_nil_iff.mpr hle, List.drop_eq_nil_iff.mpr]
    exact hle.trans hlt.le

/-- Whether a question mark is noted. -/
def seesQuery (data path : Bytes) : Bool :=
  (path.drop (16 * (targetLength data / 16))).contains 63

theorem Sse.advancePath_eq (buf : Bytes) : Sse.advancePath buf =
    match Cinatra.advancePath buf with
    | .ok ((path, _), rest) => .ok ((path, (path.drop (16 * (buf.length / 16))).contains 63), rest)
    | .error e => .error e := by
  rw [Sse.advancePath, Cinatra.advancePath, Sse.advanceToken_eq, map_apply, map_apply]
  cases hread : Cinatra.advanceToken buf with
  | error e => rfl
  | ok read =>
    dsimp only
    rw [drop_findcharFast (show Cinatra.advanceToken buf = .ok (read.1, read.2) from hread)]

end Target

/-! ### The head -/

/-- The note of a query in a head. -/
def RequestHead.withQuery (head : RequestHead) (hasQuery : Bool) : RequestHead :=
  { head with hasQuery := hasQuery }

/-- What is read behind the target. -/
def afterTarget (room : ℕ) (flags : ConnectionFlags) (method path : Bytes) (hasQuery : Bool) :
    HeadReader (RequestHead × ConnectionFlags) := do
  let minorVersion ← parseHttpVersion
  if ← eol then
    let (headers, flags) ← parseHeaders room [] flags
    return (⟨method, path, hasQuery, minorVersion, headers⟩, flags)
  else stop .failed

theorem afterTarget_eq (room : ℕ) (flags : ConnectionFlags) (method path : Bytes)
    (hasQuery hasQuery' : Bool) : afterTarget room flags method path hasQuery' =
      (fun read => (read.1.withQuery hasQuery', read.2)) <$>
        afterTarget room flags method path hasQuery := by
  rw [afterTarget, afterTarget, map_bind]
  congr 1
  funext minorVersion
  rw [map_bind]
  congr 1
  funext ended
  cases ended with
  | true =>
    simp only [if_true, map_bind]
    rfl
  | false => rfl

/-- The line of a request up to its target. -/
def beforeTarget : HeadReader Bytes := eol >>= fun _ => advanceToken

theorem phrParseRequest_eq_bind (room : ℕ) (flags : ConnectionFlags) :
    phrParseRequest room flags = beforeTarget >>= fun method => advancePath >>= fun path =>
      afterTarget room flags method path.1 path.2 := by
  rw [beforeTarget, bind_assoc]
  rfl

theorem phrParseRequest_sse_eq_bind (room : ℕ) (flags : ConnectionFlags) :
    Sse.phrParseRequest room flags = beforeTarget >>= fun method => Sse.advancePath >>= fun path =>
      afterTarget room flags method path.1 path.2 := by
  rw [beforeTarget, bind_assoc, ← Sse.advanceToken_eq, Sse.phrParseRequest]
  simp only [afterTarget, Sse.parseHeaders_eq]

/-- The path of a head is that of its line. -/
theorem path_of_afterTarget {room : ℕ} {flags : ConnectionFlags} {method path : Bytes}
    {hasQuery : Bool} {buf rest : Bytes} {read : RequestHead × ConnectionFlags}
    (h : afterTarget room flags method path hasQuery buf = .ok (read, rest)) :
    read.1.path = path ∧ read.1.hasQuery = hasQuery := by
  obtain ⟨minorVersion, mid, -, h⟩ := bind_eq_ok_iff.mp h
  obtain ⟨ended, mid, -, h⟩ := bind_eq_ok_iff.mp h
  cases ended with
  | true =>
    obtain ⟨fields, mid, -, h⟩ := bind_eq_ok_iff.mp h
    cases h
    exact ⟨rfl, rfl⟩
  | false => cases h

/-- All but the note of a query is the same. -/
theorem phrParseRequest_sse (room : ℕ) (flags : ConnectionFlags) (data : Bytes) :
    Sse.phrParseRequest room flags data =
      match phrParseRequest room flags data with
      | .ok ((head, flags), rest) =>
        .ok ((head.withQuery (seesQuery data head.path), flags), rest)
      | .error e => .error e := by
  rw [phrParseRequest_eq_bind, phrParseRequest_sse_eq_bind]
  cases hline : beforeTarget data with
  | error e => rw [bind_of_error hline, bind_of_error hline]
  | ok line =>
    obtain ⟨method, buf⟩ := line
    have hlength : targetLength data = buf.length := by
      rw [targetLength, show (eol >>= fun _ => advanceToken) data = _ from hline]
    rw [bind_of_ok hline, bind_of_ok hline]
    have hpath := Sse.advancePath_eq buf
    cases hread : advancePath buf with
    | error e =>
      rw [hread] at hpath
      rw [bind_of_error hread, bind_of_error hpath]
    | ok read =>
      obtain ⟨⟨path, hasQuery⟩, mid⟩ := read
      rw [hread] at hpath
      rw [bind_of_ok hread, bind_of_ok hpath]
      dsimp only
      rw [afterTarget_eq room flags method path hasQuery, map_apply]
      cases hafter : afterTarget room flags method path hasQuery mid with
      | error e => rfl
      | ok read =>
        obtain ⟨rfl, -⟩ := path_of_afterTarget
          (show afterTarget room flags method path hasQuery mid = .ok (read.1, read.2) from hafter)
        dsimp only
        rw [seesQuery, hlength]

/-! ### What is left -/

/-! ### The parts of the target -/

/-- The pair of one piece of a query, where it has a key. -/
def queryPair (piece : Bytes) : Option (Bytes × Bytes) :=
  let key := piece.takeWhile (· ≠ 61)
  if key = [] then none else some (key, (piece.dropWhile (· ≠ 61)).tail)

/-- The pairs of the part behind the first question mark. -/
def queryPairs (target : Bytes) : List (Bytes × Bytes) :=
  ((target.dropWhile (· ≠ 63)).tail.splitOn 38).filterMap queryPair

/-- The path and the pairs of the query are those of the target. Of the pairs with a key, the first
one counts. -/
structure SplitsTarget (p : HttpParser) (target : Bytes) : Prop where
  url : p.url = target.takeWhile (· ≠ 63)
  fullUrl : p.fullUrl = target
  nodup : (p.queries.map Prod.fst).Nodup
  queries : ∀ key, p.queries.lookup key = (queryPairs target).lookup key

theorem parseQueryPiece_eq (queries : List (Bytes × Bytes)) (piece : Bytes) :
    parseQueryPiece queries piece =
      match queryPair piece with
      | none => queries
      | some (key, val) => emplace queries key val := by
  rw [parseQueryPiece, queryPair]
  by_cases hkey : piece.takeWhile (· ≠ 61) = []
  · simp only [if_pos hkey]
  · simp only [if_neg hkey]

theorem nodup_emplace {queries : List (Bytes × Bytes)} (h : (queries.map Prod.fst).Nodup)
    (key val : Bytes) : ((emplace queries key val).map Prod.fst).Nodup := by
  rw [emplace]
  split_ifs with hmem
  · exact h
  · rw [List.map_append, List.map_singleton]
    exact h.append (List.nodup_singleton key) (by simpa using hmem)

/-- A pair with a key that is there changes nothing, as the first one counts. -/
theorem lookup_emplace_append (queries more : List (Bytes × Bytes)) (key val k : Bytes) :
    (emplace queries key val ++ more).lookup k = (queries ++ (key, val) :: more).lookup k := by
  rw [emplace]
  split_ifs with hmem
  · rw [List.lookup_append, List.lookup_append, List.lookup_cons]
    cases hfound : queries.lookup k with
    | some v => rfl
    | none =>
      have hne : (k == key) = false := by
        apply beq_false_of_ne
        rintro rfl
        obtain ⟨pair, hpair, rfl⟩ := List.mem_map.mp hmem
        simpa using List.lookup_eq_none_iff.mp hfound pair hpair
      rw [hne]
  · rw [List.append_assoc]
    rfl

/-- The pieces one by one. -/
theorem foldl_parseQueryPiece (pieces : List Bytes) {queries : List (Bytes × Bytes)}
    (h : (queries.map Prod.fst).Nodup) :
    ((pieces.foldl parseQueryPiece queries).map Prod.fst).Nodup ∧
      ∀ key, (pieces.foldl parseQueryPiece queries).lookup key =
        (queries ++ pieces.filterMap queryPair).lookup key := by
  induction pieces generalizing queries with
  | nil => simpa using h
  | cons piece pieces ih =>
    rw [List.foldl_cons, parseQueryPiece_eq, List.filterMap_cons]
    cases hpair : queryPair piece with
    | none => exact ih h
    | some pair =>
      obtain ⟨hnodup, hlookup⟩ := ih (nodup_emplace h pair.1 pair.2)
      exact ⟨hnodup, fun key => (hlookup key).trans (lookup_emplace_append _ _ _ _ key)⟩

theorem parseQuery_spec (str : Bytes) : ((parseQuery [] str).map Prod.fst).Nodup ∧
    ∀ key, (parseQuery [] str).lookup key = ((str.splitOn 38).filterMap queryPair).lookup key :=
  foldl_parseQueryPiece (str.splitOn 38) List.nodup_nil

/-! ### When the two parsers agree -/

section Parsers

variable (p : HttpParser) (data : Bytes)

/-- For every text, the two parsers return and leave the same, the fields and flags of a head that
is not parsed among it, and each splits the target of a head that is. -/
structure ParsesAlike : Prop where
  same : p.parseRequestSse data = p.parseRequest data
  left : requestLeft Sse.advanceToken Sse.parseField maxHttpHeaderFieldSize p.flags data =
    requestLeft advanceToken parseField maxHttpHeaderFieldSize p.flags data
  splits : ∀ head found rest,
    phrParseRequest maxHttpHeaderFieldSize {} data = .ok ((head, found), rest) →
      SplitsTarget (p.parseRequest data).1 head.path ∧
        SplitsTarget (p.parseRequestSse data).1 head.path

/-- There is no query in the target, or there is a question mark behind all blocks of sixteen bytes
that are whole, from the target on. -/
def SeesQuery : Prop := ∀ head found rest,
  phrParseRequest maxHttpHeaderFieldSize {} data = .ok ((head, found), rest) →
    63 ∈ head.path → seesQuery data head.path = true

variable {p data} {head : RequestHead} {flags : ConnectionFlags} {headerLen : ℤ}

/-- A query that is noted is split off. -/
theorem splitsTarget_withRequest (h : head.hasQuery = head.path.contains 63) :
    SplitsTarget (p.withRequest head flags headerLen) head.path := by
  by_cases hmem : 63 ∈ head.path
  · have hquery : head.hasQuery = true := by rwa [h, List.contains_iff_mem]
    obtain ⟨hnodup, hlookup⟩ := parseQuery_spec (head.path.dropWhile (· ≠ 63)).tail
    refine ⟨?_, rfl, ?_, ?_⟩
    · rw [HttpParser.withRequest, hquery]
      rfl
    · rw [HttpParser.withRequest, hquery]
      exact hnodup
    · rw [HttpParser.withRequest, hquery]
      exact hlookup
  · have hquery : head.hasQuery = false := by
      rw [h, Bool.eq_false_iff, ne_eq, List.contains_iff_mem]
      exact hmem
    have hne : ∀ c ∈ head.path, decide (c ≠ 63) = true := fun c hc =>
      decide_eq_true fun heq => hmem (heq ▸ hc)
    refine ⟨?_, rfl, ?_, ?_⟩
    · rw [HttpParser.withRequest, hquery, List.takeWhile_eq_self_iff.mpr hne]
      rfl
    · rw [HttpParser.withRequest, hquery]
      exact List.nodup_nil
    · rw [HttpParser.withRequest, hquery, queryPairs, List.dropWhile_eq_nil_iff.mpr hne]
      intro key
      rfl

/-- A query that is not noted stays in the path. -/
theorem not_splitsTarget_withRequest (hquery : head.hasQuery = false) (hmem : 63 ∈ head.path) :
    ¬ SplitsTarget (p.withRequest head flags headerLen) head.path := by
  intro h
  have hurl := h.url
  rw [HttpParser.withRequest, hquery] at hurl
  have hne := List.takeWhile_eq_self_iff.mp hurl.symm 63 hmem
  cases hne

variable {found : ConnectionFlags} {rest : Bytes}

theorem hasQuery_of_phrParseRequest {room : ℕ}
    (h : phrParseRequest room flags data = .ok ((head, found), rest)) :
    head.hasQuery = head.path.contains 63 := by
  rw [phrParseRequest_eq_bind] at h
  obtain ⟨method, buf, -, h⟩ := bind_eq_ok_iff.mp h
  obtain ⟨target, mid, htarget, h⟩ := bind_eq_ok_iff.mp h
  obtain ⟨path, -, rfl⟩ := map_eq_ok_iff.mp htarget
  obtain ⟨hpath, hquery⟩ := path_of_afterTarget h
  rw [hpath, hquery]

/-- A head that is parsed is the same, all but the note. -/
theorem parseRequestSse_of_ok
    (h : phrParseRequest maxHttpHeaderFieldSize {} data = .ok ((head, found), rest)) :
    p.parseRequestSse data =
      (p.withRequest (head.withQuery (seesQuery data head.path)) (p.flags.or found)
        (data.length - rest.length), (data.length : ℤ) - rest.length) := by
  have hflags : phrParseRequest maxHttpHeaderFieldSize p.flags data =
      .ok ((head, p.flags.or found), rest) := by
    rw [phrParseRequest_flags]
    exact map_eq_ok_iff.mpr ⟨(head, found), h, rfl⟩
  rw [HttpParser.parseRequestSse, phrParseRequest_sse, hflags]

/-- A head that is not parsed leaves the same code. -/
theorem parseRequestSse_of_error {stopped : ParseStop}
    (h : phrParseRequest maxHttpHeaderFieldSize {} data = .error stopped) :
    p.parseRequestSse data = p.parseRequest data := by
  have hflags : phrParseRequest maxHttpHeaderFieldSize p.flags data = .error stopped := by
    rw [phrParseRequest_flags, map_apply, h]
  rw [HttpParser.parseRequestSse, HttpParser.parseRequest, phrParseRequest_sse, hflags]

/-- A question mark behind the blocks is one of the target. -/
theorem mem_of_seesQuery {path : Bytes} (h : seesQuery data path = true) : 63 ∈ path :=
  List.mem_of_mem_drop (List.contains_iff_mem.mp h)

theorem seesQuery_eq (h : SeesQuery data)
    (hok : phrParseRequest maxHttpHeaderFieldSize {} data = .ok ((head, found), rest)) :
    seesQuery data head.path = head.hasQuery := by
  rw [hasQuery_of_phrParseRequest hok]
  apply Bool.eq_iff_iff.mpr
  rw [List.contains_iff_mem]
  exact ⟨mem_of_seesQuery, h head found rest hok⟩

/-- Without vector instructions, targets are split. -/
theorem splitsTarget_parseRequest
    (h : phrParseRequest maxHttpHeaderFieldSize {} data = .ok ((head, found), rest)) :
    SplitsTarget (p.parseRequest data).1 head.path := by
  rw [HttpParser.parseRequest_of_ok h]
  exact splitsTarget_withRequest (hasQuery_of_phrParseRequest h)

variable (p data)

/-- The parsers agree where every question mark of a target is not passed over. -/
theorem parsesAlike_iff : ParsesAlike p data ↔ SeesQuery data := by
  constructor
  · intro h head found rest hok hmem
    -- otherwise the question mark stays in the path
    by_contra hnot
    rw [Bool.not_eq_true] at hnot
    have hsplits := (h.splits head found rest hok).2
    rw [parseRequestSse_of_ok hok, hnot] at hsplits
    revert hsplits
    apply not_splitsTarget_withRequest rfl
    exact hmem
  · intro h
    have hsame : p.parseRequestSse data = p.parseRequest data := by
      cases hread : phrParseRequest maxHttpHeaderFieldSize {} data with
      | error stopped => exact parseRequestSse_of_error hread
      | ok read =>
        obtain ⟨⟨head, found⟩, rest⟩ := read
        rw [parseRequestSse_of_ok hread, HttpParser.parseRequest_of_ok hread, seesQuery_eq h hread]
        rfl
    refine ⟨hsame, requestLeft_sse _ _ _, fun head found rest hok => ?_⟩
    rw [hsame]
    exact ⟨splitsTarget_parseRequest hok, splitsTarget_parseRequest hok⟩

end Parsers

/-- The query of a short target is passed over. -/
theorem not_parsesAlike_query :
    ¬ ParsesAlike {} (ascii "GET /a?b=1 HTTP/1.1\r\nHost: x\r\n\r\n") := by
  intro h
  have hurl := congrArg (fun parsed => parsed.1.url) h.same
  revert hurl
  decide +kernel

end Yalantinglibs.Cinatra
