import Yalantinglibs.Cinatra.HttpProxy

/-!
# The two texts of a response

A response is written in two ways: `to_buffers` of `coro_http_response.hpp` for a request on its
own, and `build_resp_str` where further requests are in the buffer. Both texts are messages, a first
line, fields and a body, and the parser of the client reads them back.

## Main definitions

* `bufferMessage`, `strMessage` — the parts of the two texts
* `Carries` — the body of a message is some content, and its fields say so
* `Agree` — the two messages have the same fields and carry the content of the response
* `ServedAlike` — the responses whose two texts agree

## Main results

* `phrParseResponse_render` — a message with legal fields is read back in its parts
* `agree_iff` — when the two messages agree
* `responseText_iff` — the same for every response that calls can lead to
-/

set_option autoImplicit false

namespace Yalantinglibs.Cinatra

open Reader HttpProxy

/-! ### Reading a message -/

/-- A field whose text has the form of a header line. -/
structure LegalField (h : HttpHeader) : Prop where
  name_ne : h.name ≠ []
  name_token : ∀ c ∈ h.name, tokenChar c = true
  value_plain : ∀ c ∈ h.value, isValueEnd c = false
  value_head : ∀ c rest, h.value = c :: rest → isBlank c = false

section Read

variable {h : HttpHeader} {rest : Bytes}

theorem tokenChar_ne {c : UInt8} (hc : tokenChar c = true) :
    c ≠ 58 ∧ c ≠ 13 ∧ c ≠ 10 ∧ isBlank c = false := by
  have key : ∀ n < 256, tokenChar (.ofNat n) = true → UInt8.ofNat n ≠ 58 ∧ UInt8.ofNat n ≠ 13 ∧
      UInt8.ofNat n ≠ 10 ∧ isBlank (.ofNat n) = false := by decide +kernel
  have hkey := key c.toNat c.toNat_lt
  rw [UInt8.ofNat_toNat] at hkey
  exact hkey hc

theorem getTokenToEol_append {tok : Bytes} (hplain : ∀ c ∈ tok, isValueEnd c = false)
    (rest : Bytes) : getTokenToEol (tok ++ (crcf ++ rest)) = .ok (tok, rest) := by
  have htake : takeUntil ParseStop.incomplete .failed isValueEnd (fun _ => false)
      (tok ++ 13 :: 10 :: rest) = .ok (tok, 13 :: 10 :: rest) :=
    takeUntil_append (fun c hc => ⟨hplain c hc, rfl⟩) (by decide) _
  rw [getTokenToEol, crcf, List.cons_append, List.cons_append, List.nil_append, bind_of_ok htake]
  rfl

theorem headerName_append (hlegal : LegalField h) (rest : Bytes) :
    headerName (h.name ++ 58 :: rest) = .ok (h.name, rest) := by
  have htake : takeUntil ParseStop.incomplete .failed (· = 58) (fun c => !tokenChar c)
      (h.name ++ 58 :: rest) = .ok (h.name, 58 :: rest) := by
    refine takeUntil_append (fun c hc => ?_) (by decide) rest
    obtain ⟨hcolon, -⟩ := tokenChar_ne (hlegal.name_token c hc)
    exact ⟨decide_eq_false hcolon, by rw [hlegal.name_token c hc]; rfl⟩
  rw [headerName, bind_of_ok htake, if_neg hlegal.name_ne]
  rfl

/-- The blank behind the colon is skipped, and nothing of the value. -/
theorem skipBlanks_append (hlegal : LegalField h) (rest : Bytes) :
    takeUntil ParseStop.incomplete .failed (fun c => !isBlank c) (fun _ => false)
      (32 :: (h.value ++ (crcf ++ rest))) = .ok ([32], h.value ++ (crcf ++ rest)) := by
  have hskip : ∀ c l, isBlank c = false →
      takeUntil ParseStop.incomplete .failed (fun c => !isBlank c) (fun _ => false) (32 :: c :: l) =
        .ok ([32], c :: l) := by
    intro c l hc
    have hblank : ∀ d ∈ ([32] : Bytes), (!isBlank d) = false ∧ false = false := by
      intro d hd
      rw [List.mem_singleton.mp hd]
      exact ⟨rfl, rfl⟩
    exact takeUntil_append hblank (by rw [hc]; rfl) l
  cases hvalue : h.value with
  | nil => exact hskip 13 (10 :: rest) (by decide)
  | cons c value => exact hskip c _ (hlegal.value_head c value hvalue)

theorem parseField_append (hlegal : LegalField h) (first : Bool) (rest : Bytes) :
    parseField first (h.name ++ 58 :: 32 :: (h.value ++ (crcf ++ rest))) = .ok (h, rest) := by
  obtain ⟨c, name, hname⟩ := List.exists_cons_of_ne_nil hlegal.name_ne
  have hblank : isBlank c = false :=
    (tokenChar_ne (hlegal.name_token c (hname ▸ List.mem_cons_self))).2.2.2
  have hpeek : ∀ l, peekBlank (h.name ++ l) = .ok (false, h.name ++ l) := by
    intro l
    rw [hname, List.cons_append, peekBlank, hblank]
  rw [parseField, bind_of_ok (hpeek _), Bool.and_false, if_neg (by decide),
    bind_of_ok (headerName_append hlegal _), bind_of_ok (skipBlanks_append hlegal rest),
    bind_of_ok (getTokenToEol_append hlegal.value_plain rest)]
  rfl

/-- Legal fields are read back, up to the empty line. -/
theorem parseHeaders_append {fields : List HttpHeader} (hlegal : ∀ h ∈ fields, LegalField h)
    {room : ℕ} (hroom : fields.length ≤ room) (before : List HttpHeader) (flags : ConnectionFlags)
    (rest : Bytes) :
    ∃ flags', parseHeaders room before flags
        (CoroHttpResponse.appendHeader fields ++ (crcf ++ rest)) =
      .ok ((before ++ fields, flags'), rest) := by
  induction fields generalizing room before flags with
  | nil =>
    refine ⟨flags, ?_⟩
    rw [List.append_nil]
    cases room <;> rfl
  | cons h fields ih =>
    obtain ⟨room, rfl⟩ : ∃ n, room = n + 1 := ⟨room - 1, by rw [List.length_cons] at hroom; omega⟩
    have hfirst := hlegal h List.mem_cons_self
    obtain ⟨c, name, hname⟩ := List.exists_cons_of_ne_nil hfirst.name_ne
    obtain ⟨-, hcr, hlf, -⟩ := tokenChar_ne (hfirst.name_token c (hname ▸ List.mem_cons_self))
    obtain ⟨flags', hread⟩ := ih (fun g hg => hlegal g (.tail h hg))
      (Nat.le_of_succ_le_succ hroom) (before ++ [h]) (flags.or (connectionFlags h))
    refine ⟨flags', ?_⟩
    have htext : CoroHttpResponse.appendHeader (h :: fields) ++ (crcf ++ rest) =
        h.name ++ 58 :: 32 :: (h.value ++
          (crcf ++ (CoroHttpResponse.appendHeader fields ++ (crcf ++ rest)))) := by
      rw [← List.singleton_append, HttpClient.appendHeader_append, appendHeader_singleton]
      simp only [List.append_assoc]
      rfl
    have heol : ∀ l : Bytes, l ≠ [] → eol (h.name ++ l) = .ok (false, h.name ++ l) := by
      intro l hl
      obtain ⟨d, l, rfl⟩ := List.exists_cons_of_ne_nil hl
      rw [hname]
      cases name <;> simp [eol, hcr, hlf]
    rw [htext, parseHeaders, bind_of_ok (heol _ (List.cons_ne_nil _ _)), if_neg (by decide),
      bind_of_ok (parseField_append hfirst _ _), hread, List.append_assoc]
    rfl

end Read

/-- What stands before the fields of a response. -/
def statusLine : HeadReader (ℕ × ℕ × Bytes) := do
  let minorVersion ← parseHttpVersion
  space
  let status ← parseStatus
  let msg ← getTokenToEol
  return (minorVersion, status, msg)

theorem phrParseResponse_eq (room : ℕ) : phrParseResponse room = (do
    let (minorVersion, status, msg) ← statusLine
    let (headers, _) ← parseHeaders room [] {}
    return ⟨minorVersion, status, msg, headers⟩) := by
  simp only [phrParseResponse, statusLine, bind_assoc, pure_bind]

theorem local_statusLine : Local statusLine := by
  refine local_parseHttpVersion.bind fun minorVersion => ?_
  refine local_space.bind fun _ => ?_
  refine local_parseStatus.bind fun status => ?_
  exact local_getTokenToEol.bind fun msg => local_pure _

/-- What is read of the first line of a status. -/
def lineOf (status : StatusType) : ℕ × ℕ × Bytes :=
  match statusLine (toHttpStatusString status) with
  | .ok (line, _) => line
  | .error _ => (0, 0, [])

theorem statusLine_toHttpStatusString (status : StatusType) :
    statusLine (toHttpStatusString status) = .ok (lineOf status, []) := by
  unfold lineOf
  cases status <;>
  · simp only [toHttpStatusString]
    rw [ascii_ofList]
    rfl

/-- A message with legal fields is read back in its parts. -/
theorem phrParseResponse_render {m : HttpMessage} {status : StatusType}
    (hstart : m.startLine ++ crcf = toHttpStatusString status)
    (hlegal : ∀ h ∈ m.fields, LegalField h) {room : ℕ} (hroom : m.fields.length ≤ room) :
    phrParseResponse room m.render =
      .ok (⟨(lineOf status).1, (lineOf status).2.1, (lineOf status).2.2, m.fields⟩, m.body) := by
  obtain ⟨flags, hfields⟩ := parseHeaders_append hlegal hroom [] {} m.body
  have hline := local_statusLine.consumes (statusLine_toHttpStatusString status)
  rw [HttpMessage.render, hstart, List.append_assoc, List.append_assoc, phrParseResponse_eq,
    bind_of_ok (hline _)]
  dsimp only
  rw [bind_of_ok hfields]
  rfl

/-! ### Bodies -/

/-- A text of a chunk size. -/
def IsSizeText (text : Bytes) (n : ℕ) : Prop := text ≠ [] ∧ AllHex text ∧ hexValue text = n

/-- A chunked body of some content, with one last chunk behind the others. -/
inductive ChunkedOf : Bytes → Bytes → Prop
  | last {size : Bytes} (hsize : IsSizeText size 0) : ChunkedOf (size ++ crcf ++ crcf) []
  | chunk {size data body content : Bytes} (hsize : IsSizeText size data.length) (hdata : data ≠ [])
    (hrest : ChunkedOf body content) :
    ChunkedOf (size ++ crcf ++ data ++ crcf ++ body) (data ++ content)

theorem isSizeText_toCharsHex (n : ℕ) : IsSizeText (toCharsHex n) n :=
  ⟨toCharsHex_ne_nil n, toCharsHex_allHex n, hexValue_toCharsHex n⟩

theorem chunkedOf_toChunkedBuffers {content : Bytes} (h : content ≠ []) :
    ChunkedOf (toChunkedBuffers content true) content := by
  have hlast : ChunkedOf (toCharsHex 0 ++ crcf ++ crcf) [] := .last (isSizeText_toCharsHex 0)
  have hchunk := ChunkedOf.chunk (isSizeText_toCharsHex content.length) h hlast
  rw [List.append_nil] at hchunk
  rwa [toChunkedBuffers, if_pos (List.length_pos_of_ne_nil h), if_pos rfl]

/-- A chunked body is longer than its content. -/
theorem ChunkedOf.length_lt {body content : Bytes} (h : ChunkedOf body content) :
    content.length < body.length := by
  induction h with
  | last hsize =>
    simp only [List.length_append, List.length_nil, crcf, List.length_cons]
    omega
  | chunk hsize hdata hrest ih =>
    simp only [List.length_append, crcf, List.length_cons, List.length_nil]
    omega

/-! ### The two texts -/

/-- The members that are called on a response, one run of calls for each request before, and those
for the request at hand. -/
def reachedResponse (history : List (List ResponseCall)) (calls : List ResponseCall) :
    CoroHttpResponse :=
  (history.foldl (fun r calls => (r.applyAll calls).clear)
    ({} : CoroHttpResponse).clear).applyAll calls

section Texts

variable (r : CoroHttpResponse) (clock : Clock)

/-- The content, or the view where there is none. -/
def payload : Bytes := if r.content ≠ [] then r.content else r.contentView

def lengthField (n : ℕ) : HttpHeader := ⟨ascii "Content-Length", toCharsDec n⟩

def encodingField : HttpHeader := ⟨ascii "Transfer-Encoding", ascii "chunked"⟩

/-- How `build_resp_head` says where the body ends, as fields. -/
def bufferFraming : List HttpHeader :=
  if r.fmtType = .chunked then [encodingField]
  else if r.hasName "Content-Length" then []
  else [lengthField (payload r).length]

/-- How `build_resp_str` does. -/
def strFraming : List HttpHeader :=
  if r.fmtType = .chunked then [encodingField]
  else if payload r = [] ∧ r.hasName "Content-Length" then []
  else [lengthField (payload r).length]

def firstLine : Bytes := (toHttpStatusString r.status).dropLast.dropLast

/-- The text of `to_buffers`, in parts. -/
def bufferMessage : HttpMessage where
  startLine := firstLine r
  fields := serverFields r.prepare ++ bufferFraming r.prepare ++ dateFields r.prepare clock ++
    connectionFields r.prepare ++ typeFields r.prepare ++ r.prepare.withCookies clock ++
    r.prepare.respHeaderSpan
  body := r.prepare.body

/-- The text of `build_resp_str`, in parts. -/
def strMessage : HttpMessage where
  startLine := firstLine r
  fields := serverFields r.prepare ++ strFraming r.prepare ++ dateFields r.prepare clock ++
    connectionFields r.prepare ++ r.prepare.respHeaders ++ r.prepare.respHeaderSpan
  body := if r.prepare.contentView = [] then r.prepare.content else r.prepare.contentView

/-- The body is the content, or a chunked text of it, and the fields say where it ends. -/
def Carries (fmt : FormatType) (m : HttpMessage) (content : Bytes) : Prop :=
  match fmt with
  | .normal => m.body = content ∧
    ∃ name, m.fields.filter (named "Content-Length") = [⟨name, toCharsDec content.length⟩]
  | .chunked => ChunkedOf m.body content

/-- The two texts say the same, and where their bodies end. -/
structure Agree : Prop where
  startLine : (bufferMessage r clock).startLine = (strMessage r clock).startLine
  fields : (bufferMessage r clock).fields.Perm (strMessage r clock).fields
  buffer : Carries r.fmtType (bufferMessage r clock) (payload r.prepare)
  str : Carries r.fmtType (strMessage r clock) (payload r.prepare)

/-- The lengths among the headers. -/
def userLengths : List HttpHeader :=
  (r.respHeaders ++ r.respHeaderSpan).filter (named "Content-Length")

/-- The responses whose two texts agree: those without cookies and type, with one of content and
view or both alike, and with no length of their own but that of an empty body. Where the content is
to be chunked, the view would have to be a chunked text of it. -/
def ServedAlike : Prop :=
  r.contentType = [] ∧
    match r.fmtType with
    | .normal => r.cookies = [] ∧
      (r.prepare.content = [] ∨ r.contentView = [] ∨ r.prepare.content = r.contentView) ∧
      (userLengths r = [] ∨ payload r.prepare = [] ∧ userLengths r = [lengthField 0])
    | .chunked => r.content ≠ [] ∧ ChunkedOf r.contentView r.content

end Texts

/-! ### The parts of the texts -/

section Parts

variable {r : CoroHttpResponse} {clock : Clock}

theorem firstLine_append : firstLine r ++ crcf = toHttpStatusString r.status := by
  rw [firstLine]
  cases r.status <;>
  · simp only [toHttpStatusString]
    rw [ascii_ofList]
    rfl

theorem appendHeader_lengthField (n : ℕ) :
    CoroHttpResponse.appendHeader [lengthField n] = CoroHttpResponse.contentLengthLine n := by
  rw [appendHeader_singleton]
  rfl

theorem appendHeader_bufferFraming :
    CoroHttpResponse.appendHeader (bufferFraming r) = r.framing := by
  unfold bufferFraming CoroHttpResponse.framing payload
  split_ifs with hchunked hname hcontent hview
  · rfl
  · rfl
  · exact appendHeader_lengthField _
  · exact appendHeader_lengthField _
  · rw [not_not.mp hview]
    rfl

theorem appendHeader_strFraming :
    CoroHttpResponse.appendHeader (strFraming r) = r.strFraming := by
  unfold strFraming CoroHttpResponse.strFraming payload
  by_cases hchunked : r.fmtType = .chunked
  · rw [if_pos hchunked, if_pos hchunked]
    rfl
  · rw [if_neg hchunked, if_neg hchunked]
    by_cases hcontent : r.content = []
    · rw [if_neg (not_not.mpr hcontent), if_neg (not_not.mpr hcontent)]
      by_cases hview : r.contentView = []
      · rw [if_neg (not_not.mpr hview), hview]
        by_cases hname : r.hasName "Content-Length" = true
        · rw [if_pos ⟨rfl, hname⟩, if_pos hname]
          rfl
        · rw [if_neg fun h => hname h.2, if_neg hname]
          rfl
      · rw [if_pos hview, if_neg fun h => hview h.1]
        exact appendHeader_lengthField _
    · rw [if_pos hcontent, if_pos hcontent, if_neg fun h => hcontent h.1]
      exact appendHeader_lengthField _

theorem toBuffers_eq_bufferMessage (htype : WellTyped r) :
    r.toBuffers clock = (bufferMessage r clock).render := by
  simp only [bufferMessage, HttpMessage.render, CoroHttpResponse.toBuffers,
    CoroHttpResponse.respHead, HttpClient.appendHeader_append, appendHeader_serverFields,
    appendHeader_bufferFraming, appendHeader_dateFields, appendHeader_connectionFields,
    appendHeader_typeFields (r := r.prepare) htype]
  rw [firstLine_append]
  simp only [List.append_assoc]

theorem buildRespStr_eq_strMessage :
    (r.buildRespStr clock).1 = (strMessage r clock).render := by
  simp only [strMessage, HttpMessage.render, CoroHttpResponse.buildRespStr,
    CoroHttpResponse.respStr, HttpClient.appendHeader_append, appendHeader_serverFields,
    appendHeader_strFraming, appendHeader_dateFields, appendHeader_connectionFields]
  rw [firstLine_append]
  simp only [List.append_assoc, CoroHttpResponse.prepare]

end Parts

/-! ### Agreement -/

section Agreement

variable {r : CoroHttpResponse} {clock : Clock}

/-- Of the fields that a response adds, only that of its framing is a length. -/
theorem filter_own (r : CoroHttpResponse) (clock : Clock) :
    (serverFields r).filter (named "Content-Length") = [] ∧
    (dateFields r clock).filter (named "Content-Length") = [] ∧
    (connectionFields r).filter (named "Content-Length") = [] := by
  have hserver : named "Content-Length" ⟨ascii "Server", ascii "cinatra"⟩ = false := by decide
  have hdate : named "Content-Length" ⟨ascii "Date", clock.date⟩ = false := rfl
  refine ⟨?_, ?_, ?_⟩
  · unfold serverFields
    split
    · rfl
    · rw [List.filter_cons_of_neg (by rw [hserver]; decide), List.filter_nil]
  · unfold dateFields
    split
    · rw [List.filter_cons_of_neg (by rw [hdate]; decide), List.filter_nil]
    · rfl
  · unfold connectionFields
    rcases r.keepalive with - | - | -
    · rfl
    · rfl
    · rfl

/-- The lengths among the fields of the second text. -/
theorem filter_strMessage : (strMessage r clock).fields.filter (named "Content-Length") =
    (strFraming r.prepare).filter (named "Content-Length") ++ userLengths r := by
  obtain ⟨hserver, hdate, hconnection⟩ := filter_own r.prepare clock
  rw [strMessage]
  simp only [List.filter_append, hserver, hdate, hconnection, List.nil_append,
    List.append_assoc, userLengths]
  rfl

/-- A length that is spelled as the code spells it is one of the lengths. -/
theorem userLengths_ne_nil (h : r.hasName "Content-Length" = true) : userLengths r ≠ [] := by
  obtain ⟨f, hf, hname⟩ := List.any_eq_true.mp h
  have hnamed : named "Content-Length" f = true := by
    rw [named, of_decide_eq_true hname]
    decide
  exact List.ne_nil_of_mem (List.mem_filter.mpr ⟨hf, hnamed⟩)

theorem length_cookieFields (clock : Clock) (hfmt : r.fmtType = .normal) :
    (r.withCookies clock).length = r.respHeaders.length + r.cookies.length := by
  rw [CoroHttpResponse.withCookies, hfmt, if_neg (by decide), List.length_append, List.length_map]

theorem length_typeFields_eq_zero_iff : (typeFields r).length = 0 ↔ r.contentType = [] := by
  rw [typeFields]
  by_cases hnil : r.contentType = []
  · rw [if_pos hnil]
    exact iff_of_true rfl hnil
  · rw [if_neg hnil]
    exact iff_of_false Nat.one_ne_zero hnil

/-- Where the two texts end their bodies alike, and have as many fields, there is neither a type nor
a cookie. -/
theorem length_fields_eq_iff (hfmt : r.fmtType = .normal)
    (hframing : bufferFraming r.prepare = strFraming r.prepare) :
    (bufferMessage r clock).fields.length = (strMessage r clock).fields.length ↔
      r.contentType = [] ∧ r.cookies = [] := by
  have hcookies := length_cookieFields clock (show r.prepare.fmtType = .normal from hfmt)
  have htype := length_typeFields_eq_zero_iff (r := r.prepare)
  rw [bufferMessage, strMessage, hframing]
  simp only [List.length_append, hcookies]
  rw [← List.length_eq_zero_iff (l := r.cookies), ← show _ ↔ r.contentType = [] from htype]
  have hsame : r.prepare.cookies = r.cookies := rfl
  rw [hsame]
  omega

/-- Without type and cookies, and where the bodies end alike, the fields are the same. -/
theorem fields_eq (clock : Clock) (htype : r.contentType = [])
    (hcookies : r.fmtType = .chunked ∨ r.cookies = [])
    (hframing : bufferFraming r.prepare = strFraming r.prepare) :
    (bufferMessage r clock).fields = (strMessage r clock).fields := by
  have hnone : typeFields r.prepare = [] := if_pos htype
  have hheaders : r.prepare.withCookies clock = r.prepare.respHeaders := by
    rw [CoroHttpResponse.withCookies]
    obtain hfmt | hcookies := hcookies
    · exact if_pos hfmt
    · split
      · rfl
      · rw [show r.prepare.cookies = [] from hcookies, List.map_nil, List.append_nil]
  rw [bufferMessage, strMessage]
  simp only [hframing, hnone, hheaders, List.append_nil]

/-- A response that is not chunked is written as it is. -/
theorem bufferMessage_body (hfmt : r.fmtType = .normal) :
    (bufferMessage r clock).body = payload r.prepare := by
  have hchunked : ¬ r.prepare.fmtType = .chunked := by
    rw [show r.prepare.fmtType = .normal from hfmt]
    decide
  rw [bufferMessage, CoroHttpResponse.body, payload]
  simp only [CoroHttpResponse.handleContent, if_neg hchunked]
  split_ifs with hcontent hview
  · rfl
  · rfl
  · exact (not_not.mp hview).symm

theorem strMessage_body_iff : (strMessage r clock).body = payload r.prepare ↔
    r.prepare.content = [] ∨ r.contentView = [] ∨ r.prepare.content = r.contentView := by
  have hsame : r.prepare.contentView = r.contentView := rfl
  rw [strMessage, payload, hsame]
  by_cases hcontent : r.prepare.content = []
  · rw [if_neg (not_not.mpr hcontent), hcontent]
    simp [eq_comm]
  · rw [if_pos hcontent]
    by_cases hview : r.contentView = []
    · rw [if_pos hview]
      simp [hview]
    · rw [if_neg hview]
      simp [hcontent, hview, eq_comm]

/-- Both ways to write a response end the body alike, where no length of its own stands in the way.
-/
theorem framing_eq (h : r.fmtType = .chunked ∨ userLengths r = [] ∨ payload r.prepare = []) :
    bufferFraming r.prepare = strFraming r.prepare := by
  rw [bufferFraming, strFraming]
  split_ifs with hchunked hname hboth hboth
  · rfl
  · rfl
  · obtain hfmt | hnone | hpayload := h
    · exact absurd hfmt hchunked
    · exact absurd hnone (userLengths_ne_nil hname)
    · exact absurd ⟨hpayload, hname⟩ hboth
  · exact absurd hboth.2 hname
  · rfl

/-- The second text has just one length, that of its body, where the response has none of its own,
or that of an empty body. -/
theorem filter_strMessage_iff (clock : Clock) (hfmt : r.fmtType = .normal) :
    (∃ name, (strMessage r clock).fields.filter (named "Content-Length") =
      [⟨name, toCharsDec (payload r.prepare).length⟩]) ↔
      userLengths r = [] ∨ payload r.prepare = [] ∧ userLengths r = [lengthField 0] := by
  have hchunked : ¬ r.prepare.fmtType = .chunked := by
    rw [show r.prepare.fmtType = .normal from hfmt]
    decide
  have hlength : ∀ n, [lengthField n].filter (named "Content-Length") = [lengthField n] := by
    intro n
    have hnamed : named "Content-Length" (lengthField n) = true := by
      show iequal0 (ascii "Content-Length") (ascii "Content-Length") = true
      decide
    rw [List.filter_cons_of_pos hnamed, List.filter_nil]
  rw [filter_strMessage, strFraming, if_neg hchunked]
  split_ifs with hown
  · obtain ⟨hpayload, hname⟩ := hown
    rw [List.filter_nil, List.nil_append, hpayload]
    constructor
    · rintro ⟨name, hone⟩
      -- the one length is the one that is spelled like that of the code
      obtain ⟨f, hf, hspelled⟩ := List.any_eq_true.mp hname
      have hmem : f ∈ userLengths r := by
        refine List.mem_filter.mpr ⟨hf, ?_⟩
        rw [named, of_decide_eq_true hspelled]
        decide
      rw [hone, List.mem_singleton] at hmem
      have hname' := of_decide_eq_true hspelled
      rw [hmem] at hname'
      right
      refine ⟨rfl, hone.trans ?_⟩
      rw [show name = ascii "Content-Length" from hname']
      rfl
    · rintro (hnone | ⟨-, hone⟩)
      · exact absurd hnone (userLengths_ne_nil hname)
      · exact ⟨_, hone⟩
  · rw [hlength, List.singleton_append]
    constructor
    · rintro ⟨name, hone⟩
      exact .inl (List.cons.inj hone).2
    · rintro (hnone | ⟨hpayload, hone⟩)
      · exact ⟨ascii "Content-Length", by rw [hnone]; rfl⟩
      · have hname : r.prepare.hasName "Content-Length" = true := by
          have hmem : lengthField 0 ∈ userLengths r := hone ▸ List.mem_singleton_self _
          rw [userLengths, List.mem_filter] at hmem
          exact List.any_eq_true.mpr ⟨_, hmem.1, by decide⟩
        exact absurd ⟨hpayload, hname⟩ hown

/-- A chunked text of the content is written the first way, as it has to be the second way. -/
theorem chunked_bodies (hfmt : r.fmtType = .chunked)
    (hstr : ChunkedOf (strMessage r clock).body (payload r.prepare)) :
    r.content ≠ [] ∧ ChunkedOf r.contentView r.content := by
  have hcontent : r.prepare.content = r.content := by
    rw [CoroHttpResponse.prepare]
    exact if_neg fun h => h.2.2 hfmt
  have hview : r.prepare.contentView = r.contentView := rfl
  have hself : ∀ s : Bytes, ¬ ChunkedOf s s := fun s h => absurd h.length_lt (lt_irrefl _)
  rw [strMessage, payload, hcontent, hview] at hstr
  dsimp only at hstr
  by_cases hnil : r.content = []
  · rw [if_neg (not_not.mpr hnil), hnil] at hstr
    split_ifs at hstr with hviewNil
    · rw [hviewNil] at hstr
      exact absurd hstr (hself _)
    · exact absurd hstr (hself _)
  · rw [if_pos hnil] at hstr
    split_ifs at hstr with hviewNil
    · exact absurd hstr (hself _)
    · exact ⟨hnil, hstr⟩

/-- When the two texts of a response agree. -/
theorem agree_iff : Agree r clock ↔ ServedAlike r := by
  cases hfmt : r.fmtType with
  | normal =>
    rw [ServedAlike, hfmt]
    constructor
    · rintro ⟨-, hfields, -, hstr⟩
      rw [hfmt, Carries] at hstr
      obtain ⟨hbody, hone⟩ := hstr
      have hlengths := (filter_strMessage_iff clock hfmt).mp hone
      obtain ⟨htype, hcookies⟩ := (length_fields_eq_iff hfmt (framing_eq
        (.inr (hlengths.imp_right And.left)))).mp hfields.length_eq
      exact ⟨htype, hcookies, strMessage_body_iff.mp hbody, hlengths⟩
    · rintro ⟨htype, hcookies, hbody, hlengths⟩
      have hfields := fields_eq clock htype (.inr hcookies)
        (framing_eq (.inr (hlengths.imp_right And.left)))
      have hone := (filter_strMessage_iff clock hfmt).mpr hlengths
      refine ⟨rfl, .of_eq hfields, ?_, ?_⟩
      · rw [hfmt, Carries]
        exact ⟨bufferMessage_body hfmt, hfields ▸ hone⟩
      · rw [hfmt, Carries]
        exact ⟨strMessage_body_iff.mpr hbody, hone⟩
  | chunked =>
    rw [ServedAlike, hfmt]
    have hframing := framing_eq (r := r) (.inl hfmt)
    constructor
    · rintro ⟨-, hfields, -, hstr⟩
      rw [hfmt, Carries] at hstr
      have hlength := hfields.length_eq
      have hheaders : r.prepare.withCookies clock = r.prepare.respHeaders := if_pos hfmt
      rw [bufferMessage, strMessage, hframing, hheaders] at hlength
      simp only [List.length_append] at hlength
      have htype : (typeFields r.prepare).length = 0 := by omega
      exact ⟨length_typeFields_eq_zero_iff.mp htype, chunked_bodies hfmt hstr⟩
    · rintro ⟨htype, hcontent, hview⟩
      have hsame : r.prepare.content = r.content := by
        rw [CoroHttpResponse.prepare]
        exact if_neg fun h => h.2.2 hfmt
      have hpayload : payload r.prepare = r.content := by
        rw [payload, hsame, if_pos hcontent]
      have hviewNe : r.contentView ≠ [] := by
        rintro hnil
        have hlt := hview.length_lt
        rw [hnil] at hlt
        exact absurd hlt (Nat.not_lt_zero _)
      refine ⟨rfl, .of_eq (fields_eq clock htype (.inl hfmt) hframing), ?_, ?_⟩
      · rw [hfmt, Carries, hpayload, bufferMessage, CoroHttpResponse.body, hsame,
          if_pos hcontent, CoroHttpResponse.handleContent]
        dsimp only
        rw [if_pos (show r.prepare.fmtType = .chunked from hfmt)]
        exact chunkedOf_toChunkedBuffers hcontent
      · rw [hfmt, Carries, hpayload, strMessage]
        dsimp only
        rw [if_neg (show ¬ r.prepare.contentView = [] from hviewNe)]
        exact hview

end Agreement

/-- The type of a response is a line of the table, whatever was called on it. -/
theorem wellTyped_reachedResponse (history : List (List ResponseCall))
    (calls : List ResponseCall) : WellTyped (reachedResponse history calls) := by
  rw [reachedResponse]
  apply wellTyped_applyAll
  suffices h : ∀ r : CoroHttpResponse, WellTyped r →
      WellTyped (history.foldl (fun r calls => (r.applyAll calls).clear) r) from h _ (.inl rfl)
  induction history with
  | nil => exact fun r hr => hr
  | cons calls history ih => exact fun r hr => ih _ (wellTyped_applyAll hr calls)

/-- For every response that calls can lead to, both texts are messages, which are read back where
their fields are legal, and the two agree for the responses that are served alike. -/
theorem responseText_iff (history : List (List ResponseCall)) (calls : List ResponseCall)
    (clock : Clock) :
    let r := reachedResponse history calls
    r.toBuffers clock = (bufferMessage r clock).render ∧
      (r.buildRespStr clock).1 = (strMessage r clock).render ∧
      (∀ m ∈ [bufferMessage r clock, strMessage r clock], (∀ h ∈ m.fields, LegalField h) →
        ∀ room, m.fields.length ≤ room → phrParseResponse room m.render =
          .ok (⟨(lineOf r.status).1, (lineOf r.status).2.1, (lineOf r.status).2.2, m.fields⟩,
            m.body)) ∧
      (Agree r clock ↔ ServedAlike r) := by
  intro r
  refine ⟨toBuffers_eq_bufferMessage (wellTyped_reachedResponse history calls),
    buildRespStr_eq_strMessage, ?_, agree_iff⟩
  intro m hm hlegal room hroom
  have hstart : m.startLine ++ crcf = toHttpStatusString r.status := by
    obtain rfl | hm := List.mem_cons.mp hm
    · exact firstLine_append
    · rw [List.mem_singleton.mp hm]
      exact firstLine_append
  exact phrParseResponse_render hstart hlegal hroom

/-- The content `hi` as HTML: the second text has no type. -/
theorem not_agree_html :
    ¬ Agree (reachedResponse [] [.setStatusAndContent .ok [104, 105], .setContentType 2])
      ⟨ascii "Thu, 01 Jan 1970 00:00:00 GMT", fun _ => []⟩ := by
  rw [agree_iff]
  intro h
  exact absurd h.1 (by decide)

end Yalantinglibs.Cinatra
