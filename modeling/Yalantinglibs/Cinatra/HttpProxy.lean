import Mathlib.Data.List.Nodup
import Yalantinglibs.Cinatra.CoroHttpConnection
import Yalantinglibs.Cinatra.RequestHeader

/-!
# The reverse proxy

`coro_http_server::reply`. A request is sent on to a host by a client, and what the client has read
is the response. The fields of what was read are a span; fields are removed from it in place.

Which host is taken is a matter of the load balancer. Aspects and TLS are not modelled, and an
exchange that fails is none.

## Main definitions

* `eraseIf`, `removeResultHeaders`, `handleResponseHeader` — how fields are removed
* `ProxyRequest.sent` — the request that is sent on
* `answer` — the response to the client

## Main results

* `removeResultHeaders_eq_iff` — when one field is removed, and no other
* `relaysRequest_iff`, `relaysResponse_iff` — when a request and a response are relayed
* `written_eq_render` — the messages are what is written
-/

set_option autoImplicit false

namespace Yalantinglibs.Cinatra.HttpProxy

open HttpClient

/-! ### Removing fields -/

/-- `std::remove_if` with a predicate that has a state: the elements that are moved to the front. -/
def removeIf {σ α : Type} (p : σ → α → σ × Bool) : σ → List α → List α
  | _, [] => []
  | s, a :: as => if (p s a).2 then removeIf p (p s a).1 as else a :: removeIf p (p s a).1 as

/-- `erase_if`: the elements that are not moved over stay as they are, and as many are kept as there
were removed. -/
def eraseIf {σ α : Type} (p : σ → α → σ × Bool) (s : σ) (sp : List α) : List α × ℕ :=
  let kept := removeIf p s sp
  let count := sp.length - kept.length
  ((kept ++ sp.drop kept.length).take count, count)

/-- The predicate of `remove_result_headers`, with what was found before. -/
def matchesFirst (value : Bytes) (r : Bool) (header : HttpHeader) : Bool × Bool :=
  if r then (r, false)
  else
    let r : Bool := value <:+: header.value
    (r, r)

/-- `remove_result_headers`. -/
def removeResultHeaders (headers : List HttpHeader) (value : Bytes) : List HttpHeader × ℕ :=
  eraseIf (matchesFirst value) false headers

/-- A value for the first field with a name. -/
def setFirst (headers : List HttpHeader) (name value : Bytes) : List HttpHeader :=
  match headers with
  | [] => []
  | h :: headers =>
    if h.name = name then { h with value := value } :: headers else h :: setFirst headers name value

/-- `handle_response_header`. -/
def handleResponseHeader (headers : List HttpHeader) (body : Bytes) : List HttpHeader :=
  let (headers, r) := removeResultHeaders headers (ascii "chunked")
  if r = 0 then
    let (headers, r) := removeResultHeaders headers (ascii "multipart/form-data")
    if r = 0 then headers else setFirst headers (ascii "Content-Length") (toCharsDec body.length)
  else headers

section Removing

variable {headers : List HttpHeader} {value : Bytes}

/-- The text of a value is looked for in one field. -/
def hasValue (value : Bytes) (header : HttpHeader) : Bool := value <:+: header.value

/-- Behind the first field nothing is removed. -/
theorem removeIf_matchesFirst_true :
    removeIf (matchesFirst value) true headers = headers := by
  induction headers with
  | nil => rfl
  | cons h headers ih =>
    rw [removeIf, matchesFirst, if_pos rfl, if_neg Bool.false_ne_true, ih]

/-- The first field with the value is not moved to the front. -/
theorem removeIf_matchesFirst :
    removeIf (matchesFirst value) false headers = headers.eraseP (hasValue value) := by
  induction headers with
  | nil => rfl
  | cons h headers ih =>
    have hfirst : matchesFirst value false h = (hasValue value h, hasValue value h) := rfl
    rw [removeIf, hfirst]
    cases hvalue : hasValue value h with
    | true =>
      rw [if_pos rfl, List.eraseP_cons_of_pos hvalue]
      exact removeIf_matchesFirst_true
    | false =>
      rw [if_neg Bool.false_ne_true, List.eraseP_cons_of_neg (by rw [hvalue]; decide), ih]

/-- One field is removed and the others are kept only where there are two, or none at all: as many
are kept as were removed. -/
theorem removeResultHeaders_eq_iff :
    (removeResultHeaders headers value).1 = headers.eraseP (hasValue value) ↔
      headers = [] ∨ headers.length = 2 ∧ ∃ h ∈ headers, hasValue value h := by
  unfold removeResultHeaders eraseIf
  dsimp only
  rw [removeIf_matchesFirst]
  by_cases hany : ∃ h ∈ headers, hasValue value h
  · obtain ⟨h, hmem, hvalue⟩ := hany
    have hlen : (headers.eraseP (hasValue value)).length = headers.length - 1 :=
      List.length_eraseP_of_mem hmem hvalue
    have hpos : 0 < headers.length := List.length_pos_of_mem hmem
    have hcount : headers.length - (headers.eraseP (hasValue value)).length = 1 := by omega
    rw [hcount]
    constructor
    · intro heq
      have hlen' := congrArg List.length heq
      rw [List.length_take, List.length_append, List.length_drop, hlen] at hlen'
      exact .inr ⟨by omega, h, hmem, hvalue⟩
    · rintro (rfl | ⟨htwo, -⟩)
      · cases hmem
      · exact List.take_left' (by omega)
  · have hsame : headers.eraseP (hasValue value) = headers :=
      List.eraseP_of_forall_not fun h hmem hvalue => hany ⟨h, hmem, hvalue⟩
    rw [hsame, Nat.sub_self, List.take_zero]
    constructor
    · intro hnil
      exact .inl hnil.symm
    · rintro (rfl | ⟨-, hvalue⟩)
      · rfl
      · exact absurd hvalue hany

/-- As many fields are counted as were removed. -/
theorem removeResultHeaders_count (h : ∃ h ∈ headers, hasValue value h) :
    (removeResultHeaders headers value).2 = 1 := by
  obtain ⟨h, hmem, hvalue⟩ := h
  unfold removeResultHeaders eraseIf
  dsimp only
  rw [removeIf_matchesFirst, List.length_eraseP_of_mem hmem hvalue]
  have hpos : 0 < headers.length := List.length_pos_of_mem hmem
  omega

end Removing

/-! ### The request -/

/-- A request: its target is the full URL. -/
structure ProxyRequest where
  method : HttpMethod
  target : Bytes
  headers : List HttpHeader
  body : Bytes
  deriving DecidableEq, Repr

namespace ProxyRequest

variable (req : ProxyRequest)

/-- What the parser of the connection has of the request. -/
def parser : HttpParser :=
  HttpParser.withRequest {}
    { method := methodName req.method, path := req.target, hasQuery := req.target.contains 63,
      minorVersion := 1, headers := req.headers } {} 0

/-- The body that the connection reads for a handler. -/
def seenBody (object : CoroHttpRequest) : Bytes :=
  ((readBody (object.getContentType req.parser).streams req.parser.bodyLen.toNat req.body []).map
    Prod.fst).getD []

/-- The host of an upstream, with or without a scheme. -/
def upstreamHost (host : Bytes) : Bytes :=
  (Uri.parseFrom (if ascii "//" <:+: host then host else ascii "http://" ++ host)).2.host

/-- The fields that are given to the client. -/
def relayHeaders (host : Bytes) : List HttpHeader :=
  insertOrAssign (req.headers.foldl emplaceHeader []) (ascii "Host") (upstreamHost host)

/-- The message that is sent on. -/
def sent (object : CoroHttpRequest) (host : Bytes) : Option HttpMessage :=
  (requestUri req.target).map fun u =>
    ({} : HttpClient).message u (methodType (methodName req.method))
      { content := req.seenBody object } (req.relayHeaders host)

end ProxyRequest

/-! ### The response -/

/-- A response of an upstream, its body without the framing. -/
structure UpstreamResponse where
  status : StatusType
  headers : List HttpHeader
  body : Bytes
  deriving DecidableEq, Repr

/-- `resp_data`. -/
structure RespData where
  status : StatusType
  respHeaders : List HttpHeader
  respBody : Bytes
  deriving DecidableEq, Repr

/-- What the client has of a response. Behind a `HEAD` it reads no body, and of a form that is not
chunked it has the contents of the parts. -/
def UpstreamResponse.read (up : UpstreamResponse) (method : HttpMethod) (parts : Bytes → Bytes) :
    RespData where
  status := up.status
  respHeaders := up.headers
  respBody :=
    if method = .head then []
    else if ({ headers := up.headers } : HttpParser).isChunked then up.body
    else if ({ headers := up.headers } : HttpParser).isMultipart then parts up.body
    else up.body

/-- The calls on the response. -/
def replyCalls (result : RespData) : List ResponseCall :=
  [.addHeaderSpan (handleResponseHeader result.respHeaders result.respBody),
    .setStatusAndContentView result.status result.respBody]

/-- The response of a connection behind the handler. -/
def answered (before : CoroHttpResponse) (result : RespData) : CoroHttpResponse :=
  before.applyAll (replyCalls result)

/-! ### The message of a response -/

section Message

variable (r : CoroHttpResponse) (clock : Clock)

/-- The type of the content is a line of its table. -/
def WellTyped : Prop := r.contentType = [] ∨ ∃ n, r.contentType = getContentTypeText n

def serverFields : List HttpHeader :=
  if r.hasName "Server" then [] else [⟨ascii "Server", ascii "cinatra"⟩]

def framingFields : List HttpHeader :=
  if r.hasName "Content-Length" then []
  else
    [⟨ascii "Content-Length",
      toCharsDec (if r.content ≠ [] then r.content.length else r.contentView.length)⟩]

def dateFields : List HttpHeader := if r.needDate then [⟨ascii "Date", clock.date⟩] else []

def connectionFields : List HttpHeader :=
  match r.keepalive with
  | some true => [⟨ascii "Connection", ascii "keep-alive"⟩]
  | some false => [⟨ascii "Connection", ascii "close"⟩]
  | none => []

/-- The line of the type, as a field. -/
def typeFields : List HttpHeader :=
  if r.contentType = [] then []
  else [⟨ascii "Content-Type", (r.contentType.drop 14).dropLast.dropLast⟩]

/-- A response that is not chunked, in parts. -/
def responseMessage : HttpMessage where
  startLine := (toHttpStatusString r.status).dropLast.dropLast
  fields := serverFields r.prepare ++ framingFields r.prepare ++ dateFields r.prepare clock ++
    connectionFields r.prepare ++ typeFields r.prepare ++ r.prepare.withCookies clock ++
    r.prepare.respHeaderSpan
  body := r.prepare.body

variable {r clock}

theorem appendHeader_singleton (h : HttpHeader) :
    CoroHttpResponse.appendHeader [h] = h.name ++ ascii ": " ++ h.value ++ crcf := by
  rw [CoroHttpResponse.appendHeader, List.flatMap_singleton]

theorem appendHeader_serverFields :
    CoroHttpResponse.appendHeader (serverFields r) = r.serverLine := by
  unfold serverFields CoroHttpResponse.serverLine
  split
  · rfl
  · rfl

theorem appendHeader_framingFields (hfmt : r.fmtType = .normal) :
    CoroHttpResponse.appendHeader (framingFields r) = r.framing := by
  have hchunked : ¬ r.fmtType = .chunked := by
    rw [hfmt]
    decide
  unfold framingFields CoroHttpResponse.framing
  rw [if_neg hchunked]
  split
  · rfl
  · rw [appendHeader_singleton]
    by_cases hcontent : r.content = []
    · by_cases hview : r.contentView = []
      · rw [if_neg (not_not.mpr hcontent), if_neg (not_not.mpr hcontent),
          if_neg (not_not.mpr hview), hview]
        rfl
      · rw [if_neg (not_not.mpr hcontent), if_neg (not_not.mpr hcontent), if_pos hview]
        rfl
    · rw [if_pos hcontent, if_pos hcontent]
      rfl

theorem appendHeader_dateFields :
    CoroHttpResponse.appendHeader (dateFields r clock) = r.dateLine clock := by
  unfold dateFields CoroHttpResponse.dateLine
  split
  · rw [appendHeader_singleton]
    rfl
  · rfl

theorem appendHeader_connectionFields :
    CoroHttpResponse.appendHeader (connectionFields r) = r.connectionLine := by
  unfold connectionFields CoroHttpResponse.connectionLine
  rcases r.keepalive with - | - | - <;> rfl

/-- Fourteen characters stand before the name of a type, and two behind it. -/
theorem typeFields_eq {n : ℕ} (h : r.contentType = getContentTypeText n) : typeFields r =
    [⟨ascii "Content-Type", ascii (contentTypeNames.getD (if 43 < n then 44 else n) "")⟩] := by
  have hdrop : ∀ name : Bytes,
      ((ascii "Content-Type: " ++ name ++ crcf).drop 14).dropLast.dropLast = name := by
    intro name
    have hsplit : (ascii "Content-Type: " ++ name ++ crcf).drop 14 = name ++ [13] ++ [10] := by
      rw [List.append_assoc, List.append_assoc]
      rfl
    rw [hsplit, List.dropLast_concat, List.dropLast_concat]
  have hne : r.contentType ≠ [] := by
    rw [h, getContentTypeText]
    intro hnil
    cases hnil
  rw [typeFields, if_neg hne, h, getContentTypeText, hdrop]

theorem appendHeader_typeFields (htype : WellTyped r) :
    CoroHttpResponse.appendHeader (typeFields r) = r.contentType := by
  obtain hnil | ⟨n, hn⟩ := htype
  · rw [typeFields, if_pos hnil, hnil]
    rfl
  · rw [typeFields_eq hn, appendHeader_singleton, hn]
    rfl

/-- A response that is not chunked is written as its parts. -/
theorem toBuffers_eq_render (hfmt : r.fmtType = .normal) (htype : WellTyped r) :
    r.toBuffers clock = (responseMessage r clock).render := by
  have hstatus : toHttpStatusString r.status =
      (toHttpStatusString r.status).dropLast.dropLast ++ crcf := by
    cases r.status <;>
    · simp only [toHttpStatusString]
      rw [ascii_ofList]
      rfl
  simp only [responseMessage, HttpMessage.render, CoroHttpResponse.toBuffers,
    CoroHttpResponse.respHead, appendHeader_append, appendHeader_serverFields,
    appendHeader_framingFields (r := r.prepare) hfmt, appendHeader_dateFields,
    appendHeader_connectionFields, appendHeader_typeFields (r := r.prepare) htype]
  rw [← hstatus]
  simp only [List.append_assoc]

end Message

/-! ### Fidelity -/

/-- The code of a status. -/
def code : StatusType → ℕ
  | .init => 0
  | .httpContinue => 100
  | .switchingProtocols => 101
  | .processing => 102
  | .ok => 200
  | .created => 201
  | .accepted => 202
  | .nonauthoritative => 203
  | .noContent => 204
  | .resetContent => 205
  | .partialContent => 206
  | .multiStatus => 207
  | .alreadyReported => 208
  | .imUsed => 226
  | .multipleChoices => 300
  | .movedPermanently => 301
  | .movedTemporarily => 302
  | .notModified => 304
  | .useProxy => 305
  | .temporaryRedirect => 307
  | .permanentRedirect => 308
  | .badRequest => 400
  | .unauthorized => 401
  | .paymentRequired => 402
  | .forbidden => 403
  | .notFound => 404
  | .methodNotAllowed => 405
  | .notAcceptable => 406
  | .proxyAuthenticationRequired => 407
  | .requestTimeout => 408
  | .conflict => 409
  | .gone => 410
  | .lengthRequired => 411
  | .preconditionFailed => 412
  | .requestEntityTooLarge => 413
  | .requestUriTooLong => 414
  | .unsupportedMediaType => 415
  | .rangeNotSatisfiable => 416
  | .expectationFailed => 417
  | .imATeapot => 418
  | .enchanceYourCalm => 420
  | .misdirectedRequest => 421
  | .unprocessableEntity => 422
  | .locked => 423
  | .failedDependency => 424
  | .tooEarly => 425
  | .upgradeRequired => 426
  | .preconditionRequired => 428
  | .tooManyRequests => 429
  | .requestHeaderFieldsTooLarge => 431
  | .unavailableForLegalReasons => 451
  | .internalServerError => 500
  | .notImplemented => 501
  | .badGateway => 502
  | .serviceUnavailable => 503
  | .gatewayTimeout => 504
  | .versionNotSupported => 505
  | .variantAlsoNegotiates => 506
  | .insufficientStorage => 507
  | .loopDetected => 508
  | .notExtended => 510
  | .networkAuthenticationRequired => 511

/-- The codes that `to_http_status_string` has a line for. -/
def listedCodes : List ℕ :=
  [101, 200, 201, 202, 204, 206, 300, 301, 302, 304, 307, 400, 401, 403, 404, 405, 409, 416, 500,
    501, 502, 503]

/-- A field has a name, in lower or upper case. -/
def named (name : String) (h : HttpHeader) : Bool := iequal0 h.name (ascii name)

/-- The fields with a name are spelled like it. -/
def Spelled (headers : List HttpHeader) (name : String) : Prop :=
  ∀ h ∈ headers, named name h → h.name = ascii name

/-- A request with a body as long as it says. -/
structure ProxyRequest.WellFormed (req : ProxyRequest) : Prop where
  method : req.method ≠ .nil
  distinct : (req.headers.map fun h => h.name.map toLower).Nodup
  length : parseBodyLen req.headers = req.body.length
  encoding : ∀ h ∈ req.headers, named "Transfer-Encoding" h = false

/-- A response that is framed by its length, or chunked. -/
structure UpstreamResponse.WellFormed (up : UpstreamResponse) (method : HttpMethod) : Prop where
  status : up.status ≠ .init
  framing :
    (∃ h, up.headers.filter (named "Content-Length") = [h] ∧ h.value ≠ [] ∧ h.value.all isDigit ∧
        (method ≠ .head → decimalValue h.value = up.body.length) ∧
        up.headers.filter (named "Transfer-Encoding") = []) ∨
      ∃ h, up.headers.filter (named "Transfer-Encoding") = [h] ∧
        iequal0 h.value (ascii "chunked") ∧ up.headers.filter (named "Content-Length") = []
  head : method = .head → up.body = []

/-- The method, the target, the fields with the other host, and the body. The client may add fields
for the connection and the length where the request has none. -/
structure RelaysRequest (req : ProxyRequest) (host : Bytes) (sent : HttpMessage) : Prop where
  startLine : sent.startLine =
    methodName req.method ++ ascii " " ++ req.target ++ ascii " HTTP/1.1"
  fields : ∃ own : List HttpHeader,
    sent.fields.Perm (req.headers.filter (fun h => !named "Host" h) ++
      ⟨ascii "Host", ProxyRequest.upstreamHost host⟩ :: own) ∧
    ∀ h ∈ own, (h.name = ascii "Connection" ∨ h.name = ascii "Content-Length") ∧
      ∀ h' ∈ req.headers, iequal0 h'.name h.name = false
  body : sent.body = req.body

/-- The code, the body, the fields but for the encoding, and one length. -/
structure RelaysResponse (up : UpstreamResponse) (answer : HttpMessage) : Prop where
  status : decimalValue ((answer.startLine.drop 9).take 3) = code up.status
  body : answer.body = up.body
  fields : (up.headers.filter fun h => !named "Transfer-Encoding" h).Sublist answer.fields
  encoding : ∀ h ∈ answer.fields, named "Transfer-Encoding" h = false
  length : ∃ h, answer.fields.filter (named "Content-Length") = [h] ∧
    decimalValue h.value = up.body.length

/-- When a request is relayed: the target is a path, the body is handed to handlers, and fields for
the host, the connection and the length are spelled like those of the client. -/
structure RequestCondition (req : ProxyRequest) : Prop where
  target : req.target.head? = some 47
  body : req.body = [] ∨ req.method ≠ .get ∧ req.method ≠ .head ∧
    (({} : CoroHttpRequest).getContentType req.parser).streams = false
  host : Spelled req.headers "Host"
  connection : Spelled req.headers "Connection"
  length : req.body ≠ [] ∨ req.method = .post ∨ req.method = .put →
    Spelled req.headers "Content-Length"

/-- When a response is relayed: the status has a line, and there are two fields, the first with
`chunked` in its value being the encoding. -/
structure ResponseCondition (up : UpstreamResponse) : Prop where
  status : code up.status ∈ listedCodes
  two : up.headers.length = 2
  encoding : ∃ h, up.headers.find? (hasValue (ascii "chunked")) = some h ∧
    named "Transfer-Encoding" h

/-- A field of the server itself says nothing of a body. -/
structure Plain (h : HttpHeader) : Prop where
  encoding : named "Transfer-Encoding" h = false
  length : named "Content-Length" h = false
  chunked : hasValue (ascii "chunked") h = false

/-- A response that a handler can start from. -/
structure Ready (r : CoroHttpResponse) : Prop where
  fmtType : r.fmtType = .normal
  content : r.content = []
  cookies : r.cookies = []
  contentType : WellTyped r
  respHeaders : ∀ h ∈ r.respHeaders, Plain h

/-! ### The fields that are sent on -/

section Sent

variable {req : ProxyRequest} {headers : List HttpHeader} {host : Bytes} {object : CoroHttpRequest}

theorem named_iff {name : String} {h : HttpHeader} :
    named name h = true ↔ h.name.map toLower = (ascii name).map toLower := by
  rw [named, iequal0, decide_eq_true_eq]

/-- Fields with distinct keys are all taken into a map. -/
theorem foldl_emplaceHeader {taken : List HttpHeader}
    (hnodup : ((taken ++ headers).map HttpHeader.name).Nodup) :
    headers.foldl emplaceHeader taken = taken ++ headers := by
  induction headers generalizing taken with
  | nil => rw [List.foldl_nil, List.append_nil]
  | cons h headers ih =>
    have hnew : h.name ∉ taken.map HttpHeader.name := by
      rw [List.map_append, List.nodup_append] at hnodup
      intro hmem
      exact hnodup.2.2 h.name hmem h.name (by simp) rfl
    rw [List.foldl_cons, emplaceHeader, if_neg hnew, ih (by simpa using hnodup)]
    simp

/-- A value takes the place of the one with its key. -/
theorem insertOrAssign_perm (hnodup : (headers.map HttpHeader.name).Nodup) (name value : Bytes) :
    (insertOrAssign headers name value).Perm
      (headers.filter (fun h => h.name ≠ name) ++ [⟨name, value⟩]) := by
  have hkeep : ∀ hs : List HttpHeader, name ∉ hs.map HttpHeader.name →
      (hs.map fun h => if h.name = name then ⟨name, value⟩ else h) = hs ∧
        hs.filter (fun h => h.name ≠ name) = hs := by
    intro hs hnot
    have hne : ∀ h ∈ hs, h.name ≠ name := fun h hmem heq =>
      hnot (heq ▸ List.mem_map_of_mem hmem)
    constructor
    · conv_rhs => rw [← List.map_id hs]
      exact List.map_congr_left fun h hmem => if_neg (hne h hmem)
    · exact List.filter_eq_self.mpr fun h hmem => decide_eq_true (hne h hmem)
  unfold insertOrAssign
  split
  · rename_i hmem
    obtain ⟨h, hh, rfl⟩ := List.mem_map.mp hmem
    obtain ⟨front, back, rfl⟩ := List.append_of_mem hh
    -- the name does not occur before it or behind it
    rw [List.map_append, List.map_cons, List.nodup_append, List.nodup_cons] at hnodup
    have hfront := hkeep front fun hmem' =>
      hnodup.2.2 h.name hmem' h.name List.mem_cons_self rfl
    have hback := hkeep back hnodup.2.1.1
    rw [List.map_append, List.map_cons, hfront.1, hback.1, if_pos rfl, List.filter_append,
      List.filter_cons_of_neg (by simp), hfront.2, hback.2, List.append_assoc]
    exact List.Perm.append_left front (List.perm_append_singleton _ back).symm
  · rename_i hnot
    rw [(hkeep headers hnot).2]

theorem WellFormed.nodup (h : req.WellFormed) : (req.headers.map HttpHeader.name).Nodup := by
  have hmap : (req.headers.map fun h => h.name.map toLower) =
      (req.headers.map HttpHeader.name).map (List.map toLower) := by
    rw [List.map_map]
    rfl
  exact List.Nodup.of_map _ (hmap ▸ h.distinct)

theorem relayHeaders_perm (h : req.WellFormed) :
    (req.relayHeaders host).Perm (req.headers.filter (fun h => h.name ≠ ascii "Host") ++
      [⟨ascii "Host", ProxyRequest.upstreamHost host⟩]) := by
  unfold ProxyRequest.relayHeaders
  rw [foldl_emplaceHeader (by simpa using WellFormed.nodup h)]
  exact insertOrAssign_perm (WellFormed.nodup h) _ _

/-- A name that is spelled so in one field is spelled so in all. -/
theorem spelled_of_mem (h : req.WellFormed) {name : String}
    (hmem : ascii name ∈ req.headers.map HttpHeader.name) : Spelled req.headers name := by
  obtain ⟨h₁, hmem₁, hname₁⟩ := List.mem_map.mp hmem
  intro h₂ hmem₂ hnamed
  have hlower : h₂.name.map toLower = h₁.name.map toLower := by
    rw [hname₁]
    exact named_iff.mp hnamed
  have heq := List.inj_on_of_nodup_map h.distinct hmem₂ hmem₁ hlower
  rw [heq, hname₁]

theorem methodType_methodName {method : HttpMethod} (h : method ≠ .nil) (rest : Bytes) :
    methodType (methodName method ++ rest) = method := by
  cases method with
  | nil => exact absurd rfl h
  | _ => rfl

theorem relayHeaders_ne_nil (h : req.WellFormed) : req.relayHeaders host ≠ [] := by
  intro hnil
  have hperm := List.Perm.length_eq (relayHeaders_perm h : (req.relayHeaders host).Perm _)
  rw [hnil, List.length_append] at hperm
  simp at hperm

theorem name_mem_relayHeaders (h : req.WellFormed) {name : Bytes} (hne : name ≠ ascii "Host") :
    name ∈ (req.relayHeaders host).map HttpHeader.name ↔
      name ∈ req.headers.map HttpHeader.name := by
  rw [((relayHeaders_perm h).map _).mem_iff]
  constructor
  · intro hmem
    obtain ⟨f, hf, rfl⟩ := List.mem_map.mp hmem
    rcases List.mem_append.mp hf with hf | hf
    · exact List.mem_map_of_mem (List.mem_of_mem_filter hf)
    · rw [List.mem_singleton.mp hf] at hne
      exact absurd rfl hne
  · intro hmem
    obtain ⟨f, hf, rfl⟩ := List.mem_map.mp hmem
    refine List.mem_map_of_mem (List.mem_append_left _ (List.mem_filter.mpr ⟨hf, ?_⟩))
    exact decide_eq_true hne

/-- The field for the connection, where the request has no field that is spelled like it. -/
def ownConnection (req : ProxyRequest) : List HttpHeader :=
  if ascii "Connection" ∈ req.headers.map HttpHeader.name then []
  else [⟨ascii "Connection", ascii "keep-alive"⟩]

/-- The field for the length. -/
def ownLength (req : ProxyRequest) (object : CoroHttpRequest) : List HttpHeader :=
  if (req.seenBody object ≠ [] ∨ req.method = .post ∨ req.method = .put) ∧
      ascii "Content-Length" ∉ req.headers.map HttpHeader.name then
    [⟨ascii "Content-Length", toCharsDec (req.seenBody object).length⟩]
  else []

/-- The message that is sent on, for what the target is taken apart into. -/
theorem sent_eq (h : req.WellFormed) :
    req.sent object host = (requestUri req.target).map fun u =>
      { startLine := requestLine u req.method
        fields := req.relayHeaders host ++ ownConnection req ++ ownLength req object
        body := req.seenBody object } := by
  have hmethod : methodType (methodName req.method) = req.method := by
    have hrest := methodType_methodName h.method []
    rwa [List.append_nil] at hrest
  have hfields : ({} : HttpClient).fields { content := req.seenBody object }
      (req.relayHeaders host) = req.relayHeaders host := if_neg (relayHeaders_ne_nil h)
  have hconnection : ({} : HttpClient).connectionField { content := req.seenBody object }
      (req.relayHeaders host) = ownConnection req := by
    unfold HttpClient.connectionField ownConnection
    rw [hfields, if_congr (name_mem_relayHeaders h (by decide)) rfl rfl]
  have hlength : ({} : HttpClient).lengthField req.method { content := req.seenBody object } false
      (req.relayHeaders host) = ownLength req object := by
    unfold HttpClient.lengthField ownLength
    rw [hfields]
    refine if_congr ?_ rfl rfl
    rw [name_mem_relayHeaders h (by decide)]
    simp
  rw [ProxyRequest.sent, hmethod]
  congr 1
  funext u
  have hauthorization : ({} : HttpClient).authorizationFields = [] := rfl
  rw [HttpClient.message, hfields, hconnection, hlength, hauthorization, List.append_nil]

/-- What is read for a handler is the body, or nothing. -/
theorem seenBody_eq (h : req.WellFormed) : req.seenBody object =
    if (object.getContentType req.parser).streams ∨ req.method = .get ∨ req.method = .head then []
    else req.body := by
  have hmethod : methodType (methodName req.method ++ 32 :: req.target) = req.method :=
    methodType_methodName h.method _
  have hlen : req.parser.bodyLen =
      if req.method = .get ∨ req.method = .head then 0 else (req.body.length : ℤ) := by
    change requestBodyLen _ = _
    rw [requestBodyLen, hmethod, h.length]
    cases req.method <;> rfl
  unfold ProxyRequest.seenBody
  split_ifs with hleft
  · have hread : (object.getContentType req.parser).streams ∨ req.parser.bodyLen.toNat = 0 := by
      refine hleft.imp id fun hget => ?_
      rw [hlen, if_pos hget]
      rfl
    rw [readBody, if_pos hread]
    rfl
  · obtain ⟨hstreams, hget⟩ := not_or.mp hleft
    rw [hlen, if_neg hget, Int.toNat_natCast, readBody]
    split
    · rename_i hnil
      exact (List.length_eq_zero_iff.mp (hnil.resolve_left hstreams)).symm
    · rw [if_pos le_rfl, List.take_length]
      rfl

theorem seenBody_eq_body_iff (h : req.WellFormed) :
    req.seenBody object = req.body ↔ req.body = [] ∨ req.method ≠ .get ∧ req.method ≠ .head ∧
      (({} : CoroHttpRequest).getContentType req.parser).streams = false := by
  have hstreams : (object.getContentType req.parser).streams =
      (({} : CoroHttpRequest).getContentType req.parser).streams :=
    CoroHttpRequest.streams_congr rfl
  rw [seenBody_eq h, hstreams]
  by_cases hbody : req.body = []
  · simp [hbody]
  · rw [or_iff_right hbody]
    split_ifs with hleft
    · refine iff_of_false (fun hnil => hbody hnil.symm) fun hread => ?_
      rcases hleft with hs | hget | hhead
      · rw [hread.2.2] at hs
        cases hs
      · exact hread.1 hget
      · exact hread.2.1 hhead
    · refine iff_of_true rfl ?_
      obtain ⟨hs, hget⟩ := not_or.mp hleft
      obtain ⟨hget, hhead⟩ := not_or.mp hget
      exact ⟨hget, hhead, Bool.eq_false_iff.mpr hs⟩

/-- The first line is that of the request where the target is a path. -/
theorem requestLine_eq_iff {u : Uri} (hu : requestUri req.target = some u) :
    requestLine u req.method =
        methodName req.method ++ ascii " " ++ req.target ++ ascii " HTTP/1.1" ↔
      req.target.head? = some 47 := by
  constructor
  · intro hline
    by_contra hnot
    -- what is taken apart has a path from a slash on
    have hslash := getPath_of_requestUri hnot hu
    rw [requestLine] at hline
    simp only [List.append_assoc, List.append_cancel_left_eq] at hline
    cases hpath : u.getPath with
    | nil =>
      rw [hpath] at hslash
      cases hslash
    | cons c path =>
      rw [hpath] at hslash hline
      cases htarget : req.target with
      | nil =>
        rw [htarget] at hline
        injection hline with hc
        rw [List.head?_cons, hc] at hslash
        exact absurd hslash (by decide)
      | cons c' target =>
        rw [htarget] at hline hnot
        injection hline with hc
        rw [hc] at hslash
        exact hnot hslash
  · intro hslash
    unfold requestUri at hu
    rw [if_neg fun hnot => hnot.2 hslash] at hu
    rw [← Option.some.inj hu, requestLine, Uri.getPath]
    have hne : req.target ≠ [] := by
      intro hnil
      rw [hnil] at hslash
      cases hslash
    rw [if_neg hne, if_pos rfl, List.append_nil]

theorem exists_requestUri (hslash : req.target.head? = some 47) :
    ∃ u, requestUri req.target = some u := by
  unfold requestUri
  rw [if_neg fun hnot => hnot.2 hslash]
  exact ⟨_, rfl⟩

/-- Where one field with a name is spelled otherwise, none is spelled like it. -/
theorem not_mem_of_not_spelled (h : req.WellFormed) {name : String}
    (hnot : ¬ Spelled req.headers name) : ascii name ∉ req.headers.map HttpHeader.name :=
  fun hmem => hnot (spelled_of_mem h hmem)

/-- The fields that the client adds, where all fields are spelled like its own. -/
theorem own_of_spelled (hconnection : Spelled req.headers "Connection")
    (hlength : req.seenBody object ≠ [] ∨ req.method = .post ∨ req.method = .put →
      Spelled req.headers "Content-Length") :
    ∀ f ∈ ownConnection req ++ ownLength req object,
      (f.name = ascii "Connection" ∨ f.name = ascii "Content-Length") ∧
        ∀ f' ∈ req.headers, iequal0 f'.name f.name = false := by
  have hnone : ∀ name : String, Spelled req.headers name →
      ascii name ∉ req.headers.map HttpHeader.name →
        ∀ f' ∈ req.headers, iequal0 f'.name (ascii name) = false := by
    intro name hspelled hnot f' hf'
    rw [Bool.eq_false_iff]
    intro hnamed
    exact hnot (hspelled f' hf' hnamed ▸ List.mem_map_of_mem hf')
  intro f hf
  rcases List.mem_append.mp hf with hf | hf
  · unfold ownConnection at hf
    split at hf
    · cases hf
    · rename_i hnot
      rw [List.mem_singleton.mp hf]
      exact ⟨.inl rfl, hnone _ hconnection hnot⟩
  · unfold ownLength at hf
    split at hf
    · rename_i hadd
      rw [List.mem_singleton.mp hf]
      exact ⟨.inr rfl, hnone _ (hlength hadd.1) hadd.2⟩
    · cases hf

/-- Fields for the host that are spelled like the client's are replaced. -/
theorem filter_host (hhost : Spelled req.headers "Host") :
    (req.headers.filter fun f => !named "Host" f) =
      req.headers.filter (fun f => f.name ≠ ascii "Host") := by
  apply List.filter_congr
  intro f hf
  cases hnamed : named "Host" f with
  | true =>
    rw [hhost f hf hnamed]
    decide
  | false =>
    have hne : f.name ≠ ascii "Host" := by
      intro heq
      rw [named_iff.mpr (congrArg _ heq)] at hnamed
      cases hnamed
    exact (decide_eq_true hne).symm

/-- The fields are those of the request where they are spelled like those of the client. -/
theorem relaysFields_iff (h : req.WellFormed) :
    (∃ own : List HttpHeader,
      (req.relayHeaders host ++ ownConnection req ++ ownLength req object).Perm
        (req.headers.filter (fun f => !named "Host" f) ++
          ⟨ascii "Host", ProxyRequest.upstreamHost host⟩ :: own) ∧
      ∀ f ∈ own, (f.name = ascii "Connection" ∨ f.name = ascii "Content-Length") ∧
        ∀ f' ∈ req.headers, iequal0 f'.name f.name = false) ↔
      Spelled req.headers "Host" ∧ Spelled req.headers "Connection" ∧
        (req.seenBody object ≠ [] ∨ req.method = .post ∨ req.method = .put →
          Spelled req.headers "Content-Length") := by
  constructor
  · rintro ⟨own, hperm, hown⟩
    have hcases : ∀ f ∈ req.relayHeaders host ++ ownConnection req ++ ownLength req object,
        f ∈ req.headers ∧ named "Host" f = false ∨ f.name = ascii "Host" ∨ f ∈ own := by
      intro f hf
      rcases List.mem_append.mp (hperm.mem_iff.mp hf) with hf | hf
      · have hf := List.mem_filter.mp hf
        exact .inl ⟨hf.1, by simpa using hf.2⟩
      · rcases List.mem_cons.mp hf with rfl | hf
        · exact .inr (.inl rfl)
        · exact .inr (.inr hf)
    -- a field that the client adds is one the request does not have
    have hadded : ∀ {name : String} (value : Bytes),
        ⟨ascii name, value⟩ ∈ req.relayHeaders host ++ ownConnection req ++ ownLength req object →
        ascii name ≠ ascii "Host" → ascii name ∉ req.headers.map HttpHeader.name →
        Spelled req.headers name := by
      intro name value hf hne hnot
      rcases hcases _ hf with ⟨hf, -⟩ | hf | hf
      · exact absurd (List.mem_map_of_mem hf) hnot
      · exact absurd hf hne
      · intro f' hf' hnamed
        exact absurd hnamed (Bool.eq_false_iff.mp ((hown _ hf).2 f' hf'))
    refine ⟨?_, ?_, ?_⟩
    · intro f hf hnamed
      by_contra hne
      have hsent : f ∈ req.relayHeaders host := (relayHeaders_perm h).mem_iff.mpr
        (List.mem_append_left _ (List.mem_filter.mpr ⟨hf, decide_eq_true hne⟩))
      rcases hcases f (List.mem_append_left _ (List.mem_append_left _ hsent)) with
        ⟨-, hf'⟩ | hf' | hf'
      · rw [hnamed] at hf'
        cases hf'
      · exact hne hf'
      · -- it would be its own spelling
        have hself := (hown f hf').2 f hf
        rw [iequal0, decide_eq_false_iff_not] at hself
        exact hself rfl
    · by_contra hnot
      have hmem := not_mem_of_not_spelled h hnot
      refine hnot (hadded (ascii "keep-alive") ?_ (by decide) hmem)
      refine List.mem_append_left _ (List.mem_append_right _ ?_)
      rw [ownConnection, if_neg hmem]
      exact List.mem_singleton_self _
    · intro hadd
      by_contra hnot
      have hmem := not_mem_of_not_spelled h hnot
      refine hnot (hadded (toCharsDec (req.seenBody object).length) ?_ (by decide) hmem)
      refine List.mem_append_right _ ?_
      rw [ownLength, if_pos ⟨hadd, hmem⟩]
      exact List.mem_singleton_self _
  · rintro ⟨hhost, hconnection, hlength⟩
    refine ⟨ownConnection req ++ ownLength req object, ?_, own_of_spelled hconnection hlength⟩
    rw [filter_host hhost, List.append_assoc, List.append_cons]
    exact (relayHeaders_perm h).append_right _

/-- When a request is relayed. -/
theorem relaysRequest_iff (h : req.WellFormed) :
    (∃ m, req.sent object host = some m ∧ RelaysRequest req host m) ↔ RequestCondition req := by
  rw [sent_eq h]
  constructor
  · rintro ⟨m, hm, hrelays⟩
    obtain ⟨u, hu, rfl⟩ := Option.map_eq_some_iff.mp hm
    have hbody : req.seenBody object = req.body := hrelays.body
    obtain ⟨hhost, hconnection, hlength⟩ := (relaysFields_iff h).mp hrelays.fields
    rw [hbody] at hlength
    exact
      { target := (requestLine_eq_iff hu).mp hrelays.startLine
        body := (seenBody_eq_body_iff h).mp hbody
        host := hhost
        connection := hconnection
        length := hlength }
  · intro hcond
    obtain ⟨u, hu⟩ := exists_requestUri hcond.target
    have hbody : req.seenBody object = req.body := (seenBody_eq_body_iff h).mpr hcond.body
    refine ⟨_, by rw [hu]; rfl, ?_⟩
    exact
      { startLine := (requestLine_eq_iff hu).mpr hcond.target
        fields := (relaysFields_iff h).mpr
          ⟨hcond.host, hcond.connection, by rw [hbody]; exact hcond.length⟩
        body := hbody }

end Sent

/-! ### The fields of the answer -/

section Answered

variable {before r : CoroHttpResponse} {result : RespData} {clock : Clock} {up : UpstreamResponse}
  {method : HttpMethod} {parts : Bytes → Bytes}

theorem wellTyped_apply (h : WellTyped r) (call : ResponseCall) : WellTyped (r.apply call) := by
  cases call with
  | setContentType n => exact .inr ⟨n, rfl⟩
  | _ => exact h

/-- A type is set by calls only. -/
theorem wellTyped_applyAll (h : WellTyped r) (calls : List ResponseCall) :
    WellTyped (r.applyAll calls) := by
  induction calls generalizing r with
  | nil => exact h
  | cons call calls ih => exact ih (wellTyped_apply h call)

theorem plain_mk {name value : Bytes}
    (hencoding : iequal0 name (ascii "Transfer-Encoding") = false)
    (hlength : iequal0 name (ascii "Content-Length") = false)
    (hchunked : ¬ ascii "chunked" <:+: value) : Plain ⟨name, value⟩ :=
  ⟨hencoding, hlength, decide_eq_false hchunked⟩

theorem plain_typeFields (h : WellTyped r) : ∀ f ∈ typeFields r, Plain f := by
  have hnames : ∀ name ∈ contentTypeNames, ¬ ascii "chunked" <:+: ascii name := by
    simp only [contentTypeNames, List.forall_mem_cons]
    and_intros
    all_goals first
      | exact fun _ hname => absurd hname List.not_mem_nil
      | rw [ascii_ofList, ascii_ofList]
        decide
  have htable : ∀ n < 45, ¬ ascii "chunked" <:+: ascii (contentTypeNames.getD n "") := by
    intro n hn
    have hn' : n < contentTypeNames.length := hn
    rw [List.getD_eq_getElem?_getD, List.getElem?_eq_getElem hn', Option.getD_some]
    exact hnames _ (List.getElem_mem hn')
  intro f hf
  obtain hnil | ⟨n, hn⟩ := h
  · rw [typeFields, if_pos hnil] at hf
    cases hf
  · rw [typeFields_eq hn] at hf
    rw [List.mem_singleton.mp hf]
    refine plain_mk (by decide) (by decide) (htable _ ?_)
    split <;> omega

/-- The fields of the server itself. -/
theorem plain_own (htype : WellTyped r) (hdate : ¬ ascii "chunked" <:+: clock.date) :
    ∀ f ∈ serverFields r ++ (dateFields r clock ++ connectionFields r ++ typeFields r),
      Plain f := by
  intro f hf
  rcases List.mem_append.mp hf with hf | hf
  · unfold serverFields at hf
    split at hf
    · cases hf
    · rw [List.mem_singleton.mp hf]
      exact plain_mk (by decide) (by decide) (by rw [ascii_ofList, ascii_ofList]; decide)
  · rcases List.mem_append.mp hf with hf | hf
    · rcases List.mem_append.mp hf with hf | hf
      · unfold dateFields at hf
        split at hf
        · rw [List.mem_singleton.mp hf]
          exact plain_mk (by decide) (by decide) hdate
        · cases hf
      · unfold connectionFields at hf
        split at hf
        · rw [List.mem_singleton.mp hf]
          exact plain_mk (by decide) (by decide) (by rw [ascii_ofList, ascii_ofList]; decide)
        · rw [List.mem_singleton.mp hf]
          exact plain_mk (by decide) (by decide) (by rw [ascii_ofList, ascii_ofList]; decide)
        · cases hf
    · exact plain_typeFields htype f hf

/-- The fields of an answer: those of the server around the length, those that were set before, and
those that are passed on. -/
theorem fields_answered (result : RespData) (hready : Ready before) (clock : Clock) :
    ∃ front back : List HttpHeader,
      (responseMessage (answered before result) clock).fields =
        front ++ framingFields (answered before result).prepare ++ back ++
          handleResponseHeader result.respHeaders result.respBody ∧
      (¬ ascii "chunked" <:+: clock.date → ∀ f ∈ front ++ back, Plain f) := by
  have hwith : (answered before result).prepare.withCookies clock = before.respHeaders := by
    change (if before.fmtType = .chunked then before.respHeaders else
      before.respHeaders ++ before.cookies.map _) = _
    rw [hready.cookies, List.map_nil, List.append_nil, ite_self]
  have htype : WellTyped (answered before result).prepare :=
    wellTyped_applyAll hready.contentType _
  refine ⟨serverFields (answered before result).prepare,
    dateFields (answered before result).prepare clock ++
      connectionFields (answered before result).prepare ++
      typeFields (answered before result).prepare ++ before.respHeaders, ?_, ?_⟩
  · rw [responseMessage, hwith]
    simp only [List.append_assoc]
    rfl
  · intro hdate f hf
    rw [← List.append_assoc] at hf
    rcases List.mem_append.mp hf with hf | hf
    · exact plain_own htype hdate f hf
    · exact hready.respHeaders f hf

/-- Behind the handler there is no content, only the view. -/
theorem prepare_answered (result : RespData) (hready : Ready before) :
    (answered before result).prepare.content = [] ∧
      (answered before result).prepare.contentView = result.respBody ∧
      (answered before result).prepare.fmtType = .normal := by
  refine ⟨?_, rfl, hready.fmtType⟩
  have hcontent : (answered before result).content = [] := hready.content
  rw [CoroHttpResponse.prepare]
  dsimp only
  rw [if_neg fun h => Bool.false_ne_true h.2.1.symm, hcontent]

theorem body_answered (hready : Ready before) :
    (responseMessage (answered before result) clock).body = result.respBody := by
  obtain ⟨hcontent, hview, hfmt⟩ := prepare_answered result hready
  change (answered before result).prepare.body = _
  unfold CoroHttpResponse.body CoroHttpResponse.handleContent
  rw [hcontent, hview, hfmt, if_neg (not_not.mpr rfl)]
  split
  · rfl
  · rename_i hnil
    exact (not_not.mp hnil).symm

/-- The length is added where no field that is passed on is named so. -/
theorem framingFields_answered (result : RespData) (hready : Ready before)
    (hspan : ∀ f ∈ handleResponseHeader result.respHeaders result.respBody,
      named "Content-Length" f = false) :
    framingFields (answered before result).prepare =
      [⟨ascii "Content-Length", toCharsDec result.respBody.length⟩] := by
  obtain ⟨hcontent, hview, -⟩ := prepare_answered result hready
  have hnone : (answered before result).prepare.hasName "Content-Length" = false := by
    rw [Bool.eq_false_iff]
    intro hany
    obtain ⟨f, hf, hname⟩ := List.any_eq_true.mp hany
    have hnamed : named "Content-Length" f = true :=
      named_iff.mpr (congrArg _ (of_decide_eq_true hname))
    rcases List.mem_append.mp hf with hf | hf
    · rw [(hready.respHeaders f hf).length] at hnamed
      cases hnamed
    · rw [hspan f hf] at hnamed
      cases hnamed
  rw [framingFields, hnone, if_neg Bool.false_ne_true, hcontent, if_neg (by simp), hview]

/-- The code of a status is in its line where it is in the table. -/
theorem status_iff (status : StatusType) :
    decimalValue (((toHttpStatusString status).dropLast.dropLast.drop 9).take 3) = code status ↔
      code status ∈ listedCodes := by
  cases status <;>
  · simp only [toHttpStatusString]
    rw [ascii_ofList]
    decide

/-- A field that is the only one of a kind, and the first with a value, is the one removed. -/
theorem eraseP_eq_filter {p q : HttpHeader → Bool} {headers : List HttpHeader} {h : HttpHeader}
    (hfind : headers.find? p = some h) (hfilter : headers.filter q = [h]) :
    headers.eraseP p = headers.filter fun f => !q f := by
  obtain ⟨hp, front, back, rfl, hfront⟩ := List.find?_eq_some_iff_append.mp hfind
  have hq : q h = true := by
    have hmem : h ∈ (front ++ h :: back).filter q := by
      rw [hfilter]
      exact List.mem_singleton_self _
    exact (List.mem_filter.mp hmem).2
  have hfront' : ∀ f ∈ front, ¬ p f = true := fun f hf => by simpa using hfront f hf
  rw [List.filter_append, List.filter_cons_of_pos hq] at hfilter
  -- there is none of the kind before it or behind it
  have hlen := congrArg List.length hfilter
  rw [List.length_append, List.length_cons, List.length_singleton] at hlen
  have hnone : ∀ hs : List HttpHeader, (hs.filter q).length = 0 →
      (hs.filter fun f => !q f) = hs := by
    intro hs hzero
    refine List.filter_eq_self.mpr fun f hf => ?_
    have hnot := List.filter_eq_nil_iff.mp (List.length_eq_zero_iff.mp hzero) f hf
    simpa using hnot
  rw [List.eraseP_append_right _ hfront', List.eraseP_cons_of_pos hp, List.filter_append,
    List.filter_cons_of_neg (by simp [hq]), hnone front (by omega), hnone back (by omega)]

/-- Of two fields, the first with `chunked` in its value is removed. -/
theorem handleResponseHeader_of_two {headers : List HttpHeader} {body : Bytes} {h : HttpHeader}
    (htwo : headers.length = 2) (hfind : headers.find? (hasValue (ascii "chunked")) = some h) :
    handleResponseHeader headers body = headers.eraseP (hasValue (ascii "chunked")) := by
  have hany : ∃ f ∈ headers, hasValue (ascii "chunked") f :=
    ⟨h, List.mem_of_find?_eq_some hfind, List.find?_some hfind⟩
  have hcount := removeResultHeaders_count hany
  have hremove := removeResultHeaders_eq_iff.mpr (.inr ⟨htwo, hany⟩)
  unfold handleResponseHeader
  dsimp only
  rw [hcount, if_neg one_ne_zero, hremove]

/-- A value that is made up of digits does not say `chunked`. -/
theorem hasValue_chunked_of_digits {h : HttpHeader} (hdigits : ∀ c ∈ h.value, isDigit c = true) :
    hasValue (ascii "chunked") h = false := by
  refine decide_eq_false fun hpart => ?_
  have hc := hdigits 99 (hpart.subset (by decide))
  exact absurd hc (by decide)

/-- The encoding is the only field with the name, the first with `chunked`, and says nothing else.
-/
theorem encoding_of_condition (hup : up.WellFormed method) (hcond : ResponseCondition up) :
    ∃ h, up.headers.filter (named "Transfer-Encoding") = [h] ∧
      up.headers.find? (hasValue (ascii "chunked")) = some h ∧ h.value = ascii "chunked" ∧
      up.headers.filter (named "Content-Length") = [] := by
  obtain ⟨h, hfind, hnamed⟩ := hcond.encoding
  have hmem : h ∈ up.headers.filter (named "Transfer-Encoding") :=
    List.mem_filter.mpr ⟨List.mem_of_find?_eq_some hfind, hnamed⟩
  obtain ⟨-, -, -, -, -, hnone⟩ | ⟨t, hfilter, hvalue, hlength⟩ := hup.framing
  · rw [hnone] at hmem
    cases hmem
  · rw [hfilter, List.mem_singleton] at hmem
    rw [hmem] at hfind
    refine ⟨t, hfilter, hfind, ?_, hlength⟩
    have hchunked : hasValue (ascii "chunked") t = true := List.find?_some hfind
    have hpart : ascii "chunked" <:+: t.value := of_decide_eq_true hchunked
    have hlen : t.value.length = (ascii "chunked").length := by
      have hlower := congrArg List.length (of_decide_eq_true hvalue)
      rwa [List.length_map, List.length_map] at hlower
    exact (hpart.eq_of_length hlen.symm).symm

/-- The body that is read is that of the response, where the encoding says `chunked`. -/
theorem read_body (parts : Bytes → Bytes) (hup : up.WellFormed method) {h : HttpHeader}
    (hfilter : up.headers.filter (named "Transfer-Encoding") = [h])
    (hvalue : h.value = ascii "chunked") : (up.read method parts).respBody = up.body := by
  unfold UpstreamResponse.read
  dsimp only
  split
  · exact (hup.head ‹_›).symm
  · have hfind : up.headers.find? (named "Transfer-Encoding") = some h := by
      rw [← List.head?_filter, hfilter]
      rfl
    have hcongr : (fun f : HttpHeader => iequal0 f.name (ascii "transfer-encoding")) =
        named "Transfer-Encoding" := by
      have hlower : (ascii "transfer-encoding").map toLower =
          (ascii "Transfer-Encoding").map toLower := by decide
      funext f
      rw [named, iequal0, iequal0, hlower]
    have hchunked : ({ headers := up.headers } : HttpParser).isChunked = true := by
      rw [HttpParser.isChunked, HttpParser.getHeaderValue, headerValue, hcongr, hfind]
      exact decide_eq_true hvalue
    rw [if_pos hchunked]

/-- A response that is relayed where the condition holds. -/
theorem relaysResponse_of_condition (hup : up.WellFormed method) (hready : Ready before)
    (hdate : ¬ ascii "chunked" <:+: clock.date) (hcond : ResponseCondition up) :
    RelaysResponse up (responseMessage (answered before (up.read method parts)) clock) := by
  obtain ⟨h, hfilter, hfind, hvalue, hlength⟩ := encoding_of_condition hup hcond
  have hbody := read_body parts hup hfilter hvalue
  have hspan : handleResponseHeader up.headers (up.read method parts).respBody =
      up.headers.filter fun f => !named "Transfer-Encoding" f := by
    rw [handleResponseHeader_of_two hcond.two hfind]
    exact eraseP_eq_filter hfind hfilter
  have hspanLength : ∀ f ∈ handleResponseHeader (up.read method parts).respHeaders
      (up.read method parts).respBody, named "Content-Length" f = false := by
    intro f hf
    change f ∈ handleResponseHeader up.headers _ at hf
    rw [hspan] at hf
    simpa using List.filter_eq_nil_iff.mp hlength f (List.mem_of_mem_filter hf)
  obtain ⟨front, back, hfields, hplain⟩ :=
    fields_answered (up.read method parts) hready clock
  have hplain := hplain hdate
  have hframing := framingFields_answered (up.read method parts) hready hspanLength
  rw [hframing] at hfields
  refine
    { status := (status_iff up.status).mpr hcond.status
      body := (body_answered hready).trans hbody
      fields := ?_
      encoding := ?_
      length := ⟨⟨ascii "Content-Length", toCharsDec (up.read method parts).respBody.length⟩, ?_,
        by rw [← hbody]; exact decimalValue_toCharsDec _⟩ }
  · rw [hfields, ← hspan]
    exact List.sublist_append_right _ _
  · intro f hf
    rw [hfields] at hf
    rcases List.mem_append.mp hf with hf | hf
    · rcases List.mem_append.mp hf with hf | hf
      · rcases List.mem_append.mp hf with hf | hf
        · exact (hplain f (List.mem_append_left _ hf)).encoding
        · rw [List.mem_singleton.mp hf]
          exact show iequal0 (ascii "Content-Length") (ascii "Transfer-Encoding") = false by decide
      · exact (hplain f (List.mem_append_right _ hf)).encoding
    · change f ∈ handleResponseHeader up.headers _ at hf
      rw [hspan] at hf
      simpa using (List.mem_filter.mp hf).2
  · have hnone : ∀ fs : List HttpHeader, (∀ f ∈ fs, named "Content-Length" f = false) →
        fs.filter (named "Content-Length") = [] := fun fs hfs =>
      List.filter_eq_nil_iff.mpr fun f hf => by rw [hfs f hf]; exact Bool.false_ne_true
    rw [hfields, List.filter_append, List.filter_append, List.filter_append,
      hnone front fun f hf => (hplain f (List.mem_append_left _ hf)).length,
      hnone back fun f hf => (hplain f (List.mem_append_right _ hf)).length,
      hnone _ hspanLength, List.append_nil, List.append_nil, List.nil_append]
    exact List.filter_cons_of_pos (named_iff.mpr rfl)

/-- The first field with `chunked` in its value is the encoding, where a response is relayed. -/
theorem encoding_of_relaysResponse (hup : up.WellFormed method) (hready : Ready before)
    (hdate : ¬ ascii "chunked" <:+: clock.date)
    (hrelays : RelaysResponse up (responseMessage (answered before (up.read method parts)) clock))
    (htwo : up.headers.length = 2) {h : HttpHeader}
    (hfind : up.headers.find? (hasValue (ascii "chunked")) = some h) :
    named "Transfer-Encoding" h := by
  by_contra hnot
  obtain ⟨hp, before', behind, hsplit, hfirst⟩ := List.find?_eq_some_iff_append.mp hfind
  have hspan : handleResponseHeader up.headers (up.read method parts).respBody =
      before' ++ behind := by
    rw [handleResponseHeader_of_two htwo hfind, hsplit,
      List.eraseP_append_right _ (fun f hf => by simpa using hfirst f hf),
      List.eraseP_cons_of_pos hp]
  have hone : (before' ++ behind).length = 1 := by
    rw [hsplit, List.length_append, List.length_cons] at htwo
    rw [List.length_append]
    omega
  obtain ⟨front, back, hfields, hplain⟩ :=
    fields_answered (up.read method parts) hready clock
  change _ = _ ++ handleResponseHeader up.headers _ at hfields
  rw [hspan] at hfields
  -- the other field is passed on
  have hother : ∀ f ∈ up.headers, f ≠ h → before' ++ behind = [f] := by
    intro f hf hne
    rw [hsplit, List.mem_append, List.mem_cons] at hf
    have hmem : f ∈ before' ++ behind := by
      rw [List.mem_append]
      tauto
    obtain ⟨g, hg⟩ := List.length_eq_one_iff.mp hone
    rw [hg, List.mem_singleton] at hmem
    rw [hg, hmem]
  obtain ⟨c, hlength, -, hdigits, -, hnone⟩ | ⟨t, hfilter, -, -⟩ := hup.framing
  · -- the field that is removed is missing
    have hc : c ∈ up.headers := by
      have hmem : c ∈ up.headers.filter (named "Content-Length") := by
        rw [hlength]
        exact List.mem_singleton_self _
      exact List.mem_of_mem_filter hmem
    have hcvalue : hasValue (ascii "chunked") c = false :=
      hasValue_chunked_of_digits (List.all_eq_true.mp hdigits)
    have hne : c ≠ h := by
      rintro rfl
      rw [hp] at hcvalue
      cases hcvalue
    have hmem : h ∈ (responseMessage (answered before (up.read method parts)) clock).fields := by
      refine hrelays.fields.subset (List.mem_filter.mpr ⟨List.mem_of_find?_eq_some hfind, ?_⟩)
      simpa using hnot
    rw [hfields, hother c hc hne] at hmem
    rcases List.mem_append.mp hmem with hmem | hmem
    · have hchunked : hasValue (ascii "chunked") h = false := by
        rcases List.mem_append.mp hmem with hmem | hmem
        · rcases List.mem_append.mp hmem with hmem | hmem
          · exact (hplain hdate h (List.mem_append_left _ hmem)).chunked
          · unfold framingFields at hmem
            split at hmem
            · cases hmem
            · rw [List.mem_singleton.mp hmem]
              exact hasValue_chunked_of_digits fun c hc => isDigit_of_mem_toCharsDec hc
        · exact (hplain hdate h (List.mem_append_right _ hmem)).chunked
      rw [hp] at hchunked
      cases hchunked
    · exact hne (List.mem_singleton.mp hmem).symm
  · -- the encoding is passed on
    have ht : t ∈ up.headers.filter (named "Transfer-Encoding") := by
      rw [hfilter]
      exact List.mem_singleton_self _
    have hnamed := (List.mem_filter.mp ht).2
    have hne : t ≠ h := by
      rintro rfl
      exact hnot hnamed
    have hmem : t ∈ (responseMessage (answered before (up.read method parts)) clock).fields := by
      rw [hfields, hother t (List.mem_of_mem_filter ht) hne]
      exact List.mem_append_right _ (List.mem_singleton_self _)
    rw [hrelays.encoding t hmem] at hnamed
    cases hnamed

/-- When a response is relayed, and no field removed but the first with `chunked` in its value. -/
theorem relaysResponse_iff (hup : up.WellFormed method) (hready : Ready before)
    (hdate : ¬ ascii "chunked" <:+: clock.date) :
    RelaysResponse up (responseMessage (answered before (up.read method parts)) clock) ∧
        (removeResultHeaders up.headers (ascii "chunked")).1 =
          up.headers.eraseP (hasValue (ascii "chunked")) ↔
      ResponseCondition up := by
  rw [removeResultHeaders_eq_iff]
  constructor
  · rintro ⟨hrelays, hnil | ⟨htwo, hany⟩⟩
    · -- there is a field that says how the body is framed
      obtain ⟨h, hlength, -⟩ | ⟨h, hfilter, -⟩ := hup.framing
      · rw [hnil] at hlength
        cases hlength
      · rw [hnil] at hfilter
        cases hfilter
    · obtain ⟨h, hfind⟩ := Option.isSome_iff_exists.mp (List.find?_isSome.mpr hany)
      exact
        { status := (status_iff up.status).mp hrelays.status
          two := htwo
          encoding := ⟨h, hfind, encoding_of_relaysResponse hup hready hdate hrelays htwo hfind⟩ }
  · intro hcond
    obtain ⟨h, hfind, -⟩ := hcond.encoding
    exact ⟨relaysResponse_of_condition hup hready hdate hcond,
      .inr ⟨hcond.two, h, List.mem_of_find?_eq_some hfind, List.find?_some hfind⟩⟩

end Answered

/-! ### The relay -/

/-- The two messages are what is written. -/
theorem written_eq_render {req : ProxyRequest} {object : CoroHttpRequest} {host : Bytes}
    {before : CoroHttpResponse} {result : RespData} {clock : Clock} (hreq : req.WellFormed)
    (hready : Ready before) :
    ({} : HttpClient).asyncRequest (methodType (methodName req.method))
        { content := req.seenBody object } (req.relayHeaders host) req.target =
      (req.sent object host).map HttpMessage.render ∧
    (answered before result).toBuffers clock =
      (responseMessage (answered before result) clock).render := by
  constructor
  · rw [asyncRequest_eq_render (relayHeaders_ne_nil hreq) rfl, ProxyRequest.sent, Option.map_map]
    rfl
  · exact toBuffers_eq_render hready.fmtType (wellTyped_applyAll hready.contentType _)

/-- What `reply` is to do for a request and the response that is read: both are relayed, and no
field is removed but the first with `chunked` in its value. -/
structure Relays (req : ProxyRequest) (object : CoroHttpRequest) (host : Bytes)
    (before : CoroHttpResponse) (parts : Bytes → Bytes) (clock : Clock) (up : UpstreamResponse) :
    Prop where
  request : ∃ m, req.sent object host = some m ∧ RelaysRequest req host m
  response : RelaysResponse up
    (responseMessage (answered before (up.read req.method parts)) clock)
  removed : (removeResultHeaders up.headers (ascii "chunked")).1 =
    up.headers.eraseP (hasValue (ascii "chunked"))

/-- When a request and its response are relayed. -/
theorem relays_iff (req : ProxyRequest) (object : CoroHttpRequest) (host : Bytes)
    (before : CoroHttpResponse) (parts : Bytes → Bytes) (clock : Clock) (up : UpstreamResponse)
    (hreq : req.WellFormed) (hup : up.WellFormed req.method) (hready : Ready before)
    (hdate : ¬ ascii "chunked" <:+: clock.date) :
    Relays req object host before parts clock up ↔ RequestCondition req ∧ ResponseCondition up := by
  have hrequest : (∃ m, req.sent object host = some m ∧ RelaysRequest req host m) ↔ _ :=
    relaysRequest_iff hreq
  have hresponse := @relaysResponse_iff before clock up req.method parts hup hready hdate
  rw [← hrequest, ← hresponse]
  constructor
  · intro h
    exact ⟨h.request, h.response, h.removed⟩
  · rintro ⟨hrequest, hresponse, hremoved⟩
    exact ⟨hrequest, hresponse, hremoved⟩

/-- A request and the two responses to it, one of them chunked. -/
def getIndex : ProxyRequest where
  method := .get
  target := ascii "/"
  headers := [⟨ascii "Host", ascii "proxy"⟩]
  body := []

def pagePlain : UpstreamResponse where
  status := .ok
  headers := [⟨ascii "Content-Length", ascii "2"⟩, ⟨ascii "ETag", ascii "7"⟩]
  body := ascii "hi"

def pageChunked : UpstreamResponse where
  status := .ok
  headers := [⟨ascii "Transfer-Encoding", ascii "chunked"⟩, ⟨ascii "ETag", ascii "7"⟩]
  body := ascii "hi"

theorem getIndex_wellFormed : getIndex.WellFormed :=
  ⟨by decide, by decide, by decide, by decide⟩

theorem relays_iff_pageChunked :
    (Relays getIndex {} (ascii "upstream:80") {} id ⟨[], fun _ => []⟩ pageChunked ↔
      RequestCondition getIndex ∧ ResponseCondition pageChunked) ∧
    RequestCondition getIndex ∧ ResponseCondition pageChunked := by
  have hup : pageChunked.WellFormed getIndex.method :=
    ⟨by decide, .inr ⟨_, rfl, by decide, rfl⟩, fun h => nomatch h⟩
  have hready : Ready {} := ⟨rfl, rfl, rfl, .inl rfl, fun _ h => nomatch h⟩
  refine ⟨relays_iff getIndex {} (ascii "upstream:80") {} id ⟨[], fun _ => []⟩ pageChunked
    getIndex_wellFormed hup hready (by decide), ?_, ?_⟩
  · exact ⟨by decide, .inl rfl, by unfold Spelled; decide, by unfold Spelled; decide,
      fun h => absurd h (by decide)⟩
  · exact ⟨by decide, rfl, _, rfl, by decide⟩

/-- Of a response that is not chunked, no field is passed on. -/
theorem not_relays_pagePlain :
    ¬ ∀ (req : ProxyRequest) (object : CoroHttpRequest) (host : Bytes) (before : CoroHttpResponse)
      (parts : Bytes → Bytes) (clock : Clock) (up : UpstreamResponse), req.WellFormed →
      up.WellFormed req.method → Ready before → ¬ ascii "chunked" <:+: clock.date →
      Relays req object host before parts clock up := by
  intro h
  have hup : pagePlain.WellFormed getIndex.method :=
    ⟨by decide, .inl ⟨_, rfl, by decide, by decide, fun _ => by decide, rfl⟩, fun h => nomatch h⟩
  have hready : Ready {} := ⟨rfl, rfl, rfl, .inl rfl, fun _ h => nomatch h⟩
  have hrelays := h getIndex {} (ascii "upstream:80") {} id ⟨[], fun _ => []⟩ pagePlain
    getIndex_wellFormed hup hready (by decide)
  exact absurd (hrelays.response.fields.subset
    (show ⟨ascii "ETag", ascii "7"⟩ ∈ _ by decide)) (by decide +kernel)

end Yalantinglibs.Cinatra.HttpProxy
