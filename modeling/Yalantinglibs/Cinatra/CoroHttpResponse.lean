import Mathlib.Data.Nat.Digits.Defs
import Yalantinglibs.Cinatra.Chunked
import Yalantinglibs.Cinatra.HttpParser

/-!
# The response of a connection

`coro_http_response.hpp`. A connection has one response object. The handlers of a request set its
members, and `to_buffers` or `build_resp_str` writes it; `clear` is called between two requests. It
does not reset the content that was set as a view, the content type, and the header span.

Compressed content and multipart boundaries are not modelled.

## Main definitions

* `CoroHttpResponse` — the members
* `ResponseCall`, `CoroHttpResponse.apply` — the calls a handler makes
* `CoroHttpResponse.toBuffers`, `CoroHttpResponse.buildRespStr` — the two ways to write a response
* `CoroHttpResponse.clear`

## Main results

* `applyAll_agree` — a member is as the calls of its kind leave it
* `SameReset.toBuffers_eq` — responses that are set alike have one text
-/

set_option autoImplicit false

namespace Yalantinglibs.Cinatra

/-! ### Status -/

inductive StatusType
  | init | httpContinue | switchingProtocols | processing | ok | created | accepted
  | nonauthoritative | noContent | resetContent | partialContent | multiStatus | alreadyReported
  | imUsed | multipleChoices | movedPermanently | movedTemporarily | notModified | useProxy
  | temporaryRedirect | permanentRedirect | badRequest | unauthorized | paymentRequired
  | forbidden | notFound | methodNotAllowed | notAcceptable | proxyAuthenticationRequired
  | requestTimeout | conflict | gone | lengthRequired | preconditionFailed
  | requestEntityTooLarge | requestUriTooLong | unsupportedMediaType | rangeNotSatisfiable
  | expectationFailed | imATeapot | enchanceYourCalm | misdirectedRequest | unprocessableEntity
  | locked | failedDependency | tooEarly | upgradeRequired | preconditionRequired
  | tooManyRequests | requestHeaderFieldsTooLarge | unavailableForLegalReasons
  | internalServerError | notImplemented | badGateway | serviceUnavailable | gatewayTimeout
  | versionNotSupported | variantAlsoNegotiates | insufficientStorage | loopDetected
  | notExtended | networkAuthenticationRequired
  deriving DecidableEq, Repr

/-- `to_http_status_string`. -/
def toHttpStatusString : StatusType → Bytes
  | .switchingProtocols => ascii "HTTP/1.1 101 Switching Protocals\r\n"
  | .ok => ascii "HTTP/1.1 200 OK\r\n"
  | .created => ascii "HTTP/1.1 201 Created\r\n"
  | .accepted => ascii "HTTP/1.1 202 Accepted\r\n"
  | .noContent => ascii "HTTP/1.1 204 No Content\r\n"
  | .partialContent => ascii "HTTP/1.1 206 Partial Content\r\n"
  | .multipleChoices => ascii "HTTP/1.1 300 Multiple Choices\r\n"
  | .movedPermanently => ascii "HTTP/1.1 301 Moved Permanently\r\n"
  | .movedTemporarily => ascii "HTTP/1.1 302 Moved Temporarily\r\n"
  | .notModified => ascii "HTTP/1.1 304 Not Modified\r\n"
  | .temporaryRedirect => ascii "HTTP/1.1 307 Temporary Redirect\r\n"
  | .badRequest => ascii "HTTP/1.1 400 Bad Request\r\n"
  | .unauthorized => ascii "HTTP/1.1 401 Unauthorized\r\n"
  | .forbidden => ascii "HTTP/1.1 403 Forbidden\r\n"
  | .notFound => ascii "HTTP/1.1 404 Not Found\r\n"
  | .methodNotAllowed => ascii "HTTP/1.1 405 Method Not Allowed\r\n"
  | .conflict => ascii "HTTP/1.1 409 Conflict\r\n"
  | .rangeNotSatisfiable => ascii "HTTP/1.1 416 Requested Range Not Satisfiable\r\n"
  | .internalServerError => ascii "HTTP/1.1 500 Internal Server Error\r\n"
  | .badGateway => ascii "HTTP/1.1 502 Bad Gateway\r\n"
  | .serviceUnavailable => ascii "HTTP/1.1 503 Service Unavailable\r\n"
  | _ => ascii "HTTP/1.1 501 Not Implemented\r\n"

/-- `default_status_content`. -/
def defaultStatusContent (status : StatusType) : Bytes :=
  let str := toHttpStatusString status
  (str.drop 9).take (str.length - 11)

/-! ### Content types -/

/-- What the elements of `content_type_arr` have between `Content-Type: ` and the end of the
line. -/
def contentTypeNames : List String :=
  ["text/css", "text/csv", "text/html", "text/html", "text/javascript", "text/javascript",
   "text/plain", "text/vtt", "image/apng", "image/avif", "image/bmp", "image/gif", "image/png",
   "image/svg+xml", "image/webp", "image/x-icon", "image/tiff", "image/tiff", "image/jpeg",
   "image/jpeg", "video/mp4", "video/mpeg", "video/webm", "audio/mp3", "audio/mpeg",
   "audio/webm", "audio/wave", "font/otf", "font/ttf", "font/woff", "font/woff2",
   "application/x-7z-compressed", "application/atom+xml", "application/pdf", "application/json",
   "application/rss+xml", "application/x-tar", "application/xhtml+xml", "application/xhtml+xml",
   "application/xslt+xml", "application/xml", "application/gzip", "application/zip",
   "application/wasm", "unknown"]

/-- `get_content_type`. -/
def getContentTypeText (n : ℕ) : Bytes :=
  ascii "Content-Type: " ++ ascii (contentTypeNames.getD (if 43 < n then 44 else n) "") ++ crcf

/-! ### Cookies -/

/-- The time: `get_gmt_time_str` of now, and of a number of seconds later. -/
structure Clock where
  date : Bytes
  expires : ℤ → Bytes

/-- `std::to_chars` in base 10. -/
def toCharsDec (n : ℕ) : Bytes :=
  if n = 0 then [48] else ((Nat.digits 10 n).map fun d => .ofNat (48 + d)).reverse

structure Cookie where
  name : Bytes
  value : Bytes := []
  comment : Bytes := []
  domain : Bytes := []
  priority : Bytes := []
  path : Bytes := []
  maxAge : ℤ := -1
  version : ℤ := 0
  secure : Bool := false
  httpOnly : Bool := false
  deriving DecidableEq, Repr

namespace Cookie

variable (c : Cookie)

/-- A text with a mark before it and one behind it, where it is not empty. -/
def attr (before : String) (text : Bytes) (behind : String) : Bytes :=
  if text = [] then [] else ascii before ++ text ++ ascii behind

/-- `std::to_string`. -/
def toStringInt (n : ℤ) : Bytes := (if n < 0 then [45] else []) ++ toCharsDec n.natAbs

/-- `to_string`. -/
def text (clock : Clock) : Bytes :=
  c.name ++ ascii "=" ++
    (if c.version = 0 then
      c.value ++ attr "; domain=" c.domain "" ++ attr "; path=" c.path "" ++
        attr "; Priority=" c.priority "" ++
        (if c.maxAge ≠ -1 then ascii "; expires=" ++ clock.expires c.maxAge else []) ++
        (if c.secure then ascii "; secure" else []) ++
        if c.httpOnly then ascii "; HttpOnly" else []
    else
      ascii "\"" ++ c.value ++ ascii "\"" ++ attr "; Comment=\"" c.comment "\"" ++
        attr "; Domain=\"" c.domain "\"" ++ attr "; Path=\"" c.path "\"" ++
        attr "; Priority=\"" c.priority "\"" ++
        (if c.maxAge ≠ -1 then ascii "; Max-Age=\"" ++ toStringInt c.maxAge ++ ascii "\"" else []) ++
        (if c.secure then ascii "; secure" else []) ++
        (if c.httpOnly then ascii "; HttpOnly" else []) ++ ascii "; Version=\"1\"")

end Cookie

/-! ### The response -/

inductive FormatType
  | normal
  | chunked
  deriving DecidableEq, Repr

structure CoroHttpResponse where
  status : StatusType := .notImplemented
  fmtType : FormatType := .normal
  content : Bytes := []
  keepalive : Option Bool := none
  delay : Bool := false
  respHeaders : List HttpHeader := []
  respHeaderSpan : List HttpHeader := []
  hasSetContent : Bool := false
  needDate : Bool := true
  cookies : List Cookie := []
  contentType : Bytes := []
  contentView : Bytes := []
  deriving DecidableEq, Repr

/-- The calls a handler makes. A handler of an exact route that throws ends like one that calls
`set_status` with `service_unavailable`. -/
inductive ResponseCall
  | setStatus (status : StatusType)
  | setContent (content : Bytes)
  | setStatusAndContent (status : StatusType) (content : Bytes)
  | setStatusAndContentView (status : StatusType) (content : Bytes)
  | setFormatType (fmt : FormatType)
  | setContentType (n : ℕ)
  | addHeader (header : HttpHeader)
  | addHeaderSpan (span : List HttpHeader)
  | addCookie (cookie : Cookie)
  | setKeepalive (r : Bool)
  | needDateHead (r : Bool)
  deriving DecidableEq, Repr

namespace CoroHttpResponse

variable (r : CoroHttpResponse) (clock : Clock)

/-- A cookie takes the place of one with its name. The order of the others is not specified; here it
is the order in which they were added. -/
def addCookie (cookie : Cookie) : CoroHttpResponse :=
  { r with
    cookies :=
      if cookie.name ∈ r.cookies.map Cookie.name then
        r.cookies.map fun c => if c.name = cookie.name then cookie else c
      else r.cookies ++ [cookie] }

/-- `set_status_and_content`. -/
def setStatusAndContent (status : StatusType) (content : Bytes) : CoroHttpResponse :=
  { r with status := status, content := content, hasSetContent := true }

def apply : ResponseCall → CoroHttpResponse
  | .setStatus status => { r with status := status }
  | .setContent content => { r with content := content, hasSetContent := true }
  | .setStatusAndContent status content => r.setStatusAndContent status content
  | .setStatusAndContentView status content =>
    { r with status := status, contentView := content, hasSetContent := true }
  | .setFormatType fmt => { r with fmtType := fmt }
  | .setContentType n => { r with contentType := getContentTypeText n }
  | .addHeader header => { r with respHeaders := r.respHeaders ++ [header] }
  | .addHeaderSpan span => { r with respHeaderSpan := span }
  | .addCookie cookie => r.addCookie cookie
  | .setKeepalive keepalive => { r with keepalive := some keepalive }
  | .needDateHead needDate => { r with needDate := needDate }

/-- The calls one after another. -/
def applyAll (calls : List ResponseCall) : CoroHttpResponse := calls.foldl apply r

/-! ### Writing -/

/-- `check_header`, for a name. -/
def hasName (name : String) : Bool :=
  (r.respHeaders ++ r.respHeaderSpan).any fun h => h.name = ascii name

/-- What both ways to write a response do first: a `Date` field among the headers stands for the
date, and a status without content has its text as content. -/
def prepare : CoroHttpResponse :=
  { r with
    needDate := r.needDate && !r.hasName "Date"
    content :=
      if r.content = [] ∧ r.hasSetContent = false ∧ r.fmtType ≠ .chunked then
        defaultStatusContent r.status
      else r.content }

/-- `append_header`. -/
def appendHeader (headers : List HttpHeader) : Bytes :=
  headers.flatMap fun h => h.name ++ ascii ": " ++ h.value ++ crcf

def contentLengthLine (size : ℕ) : Bytes := ascii "Content-Length: " ++ toCharsDec size ++ crcf

def serverLine : Bytes := if r.hasName "Server" then [] else ascii "Server: cinatra\r\n"

def dateLine : Bytes := if r.needDate then ascii "Date: " ++ clock.date ++ crcf else []

def connectionLine : Bytes :=
  match r.keepalive with
  | some true => ascii "Connection: keep-alive\r\n"
  | some false => ascii "Connection: close\r\n"
  | none => []

/-- The headers with the cookies, which go with content that is not chunked. -/
def withCookies : List HttpHeader :=
  if r.fmtType = .chunked then r.respHeaders
  else r.respHeaders ++ r.cookies.map fun c => ⟨ascii "Set-Cookie", c.text clock⟩

/-- How `build_resp_head` says where the body ends. -/
def framing : Bytes :=
  if r.fmtType = .chunked then ascii "Transfer-Encoding: chunked\r\n"
  else if r.hasName "Content-Length" then []
  else if r.content ≠ [] then contentLengthLine r.content.length
  else if r.contentView ≠ [] then contentLengthLine r.contentView.length
  else ascii "Content-Length: 0\r\n"

/-- `build_resp_head`, behind what is done first. -/
def respHead : Bytes :=
  r.serverLine ++ r.framing ++ r.dateLine clock ++ r.connectionLine ++ r.contentType ++
    appendHeader (r.withCookies clock) ++ appendHeader r.respHeaderSpan ++ crcf

/-- `handle_content`. -/
def handleContent (content : Bytes) : Bytes :=
  if r.fmtType = .chunked then toChunkedBuffers content true else content

/-- The content, or the view where there is none. -/
def body : Bytes :=
  if r.content ≠ [] then r.handleContent r.content
  else if r.contentView ≠ [] then r.handleContent r.contentView
  else []

/-- `to_buffers`. -/
def toBuffers : Bytes :=
  toHttpStatusString r.status ++ r.prepare.respHead clock ++ r.prepare.body

/-- How `build_resp_str` says where the body ends. -/
def strFraming : Bytes :=
  if r.fmtType = .chunked then ascii "Transfer-Encoding: chunked\r\n"
  else if r.content ≠ [] then contentLengthLine r.content.length
  else if r.contentView ≠ [] then contentLengthLine r.contentView.length
  else if r.hasName "Content-Length" then []
  else ascii "Content-Length: 0\r\n"

/-- The text `build_resp_str` writes, behind what is done first. It writes neither cookies nor the
content type, and the view rather than the content. -/
def respStr : Bytes :=
  toHttpStatusString r.status ++ r.serverLine ++ r.strFraming ++ r.dateLine clock ++
    r.connectionLine ++ appendHeader r.respHeaders ++ appendHeader r.respHeaderSpan ++ crcf ++
    if r.contentView = [] then r.content else r.contentView

/-- `build_resp_str`: the text, and the response after it. -/
def buildRespStr : Bytes × CoroHttpResponse := (r.prepare.respStr clock, r.prepare)

/-- `clear`. -/
def clear : CoroHttpResponse :=
  { r with
    content := []
    respHeaders := []
    keepalive := none
    delay := false
    status := .init
    fmtType := .normal
    hasSetContent := false
    cookies := []
    needDate := true }

/-! ### Responses that are set alike -/

theorem defaultStatusContent_ne_nil (status : StatusType) : defaultStatusContent status ≠ [] := by
  unfold defaultStatusContent
  cases status <;>
  · simp only [toHttpStatusString]
    rw [ascii_ofList]
    decide

/-- The members that `clear` resets are alike, as far as the text of a response can tell. -/
structure SameReset (r r₀ : CoroHttpResponse) : Prop where
  status : toHttpStatusString r.status = toHttpStatusString r₀.status
  fmtType : r.fmtType = r₀.fmtType
  content : r.content = r₀.content
  keepalive : r.keepalive = r₀.keepalive
  delay : r.delay = r₀.delay
  respHeaders : r.respHeaders = r₀.respHeaders
  hasSetContent : r.hasSetContent = r₀.hasSetContent
  needDate : r.needDate = r₀.needDate
  cookies : r.cookies = r₀.cookies

variable {r} {r₀ : CoroHttpResponse} {clock}

theorem sameReset_clear : r.clear.SameReset {} := by
  constructor <;> rfl

theorem SameReset.apply (h : r.SameReset r₀) (call : ResponseCall) :
    (r.apply call).SameReset (r₀.apply call) := by
  obtain ⟨hstatus, hfmt, hcontent, hkeep, hdelay, hheaders, hset, hdate, hcookies⟩ := h
  cases call <;> constructor <;>
    simp only [CoroHttpResponse.apply, setStatusAndContent, addCookie, hstatus, hfmt, hcontent,
      hkeep, hdelay, hheaders, hset, hdate, hcookies]

theorem SameReset.applyAll (h : r.SameReset r₀) (calls : List ResponseCall) :
    (r.applyAll calls).SameReset (r₀.applyAll calls) := by
  induction calls generalizing r r₀ with
  | nil => exact h
  | cons call calls ih => exact ih (h.apply call)

/-- A member that one kind of call sets, and no other call changes, is alike behind such a call. -/
theorem applyAll_agree {β : Type} (member : CoroHttpResponse → β) {sets : ResponseCall → Prop}
    (hset : ∀ call, sets call → ∀ r r₀ : CoroHttpResponse,
      member (r.apply call) = member (r₀.apply call))
    (hkeep : ∀ call, ¬ sets call → ∀ r : CoroHttpResponse, member (r.apply call) = member r)
    {calls : List ResponseCall} (h : member r = member r₀ ∨ ∃ call ∈ calls, sets call) :
    member (r.applyAll calls) = member (r₀.applyAll calls) := by
  induction calls generalizing r r₀ with
  | nil =>
    obtain h | ⟨call, hmem, -⟩ := h
    · exact h
    · cases hmem
  | cons call calls ih =>
    rw [CoroHttpResponse.applyAll, CoroHttpResponse.applyAll, List.foldl_cons, List.foldl_cons]
    apply ih
    by_cases hsets : sets call
    · exact .inl (hset call hsets r r₀)
    · obtain h | ⟨call', hmem, hsets'⟩ := h
      · left
        rw [hkeep call hsets, hkeep call hsets, h]
      · obtain rfl | hmem := List.mem_cons.mp hmem
        · exact absurd hsets' hsets
        · exact .inr ⟨call', hmem, hsets'⟩

theorem respHeaderSpan_applyAll {calls : List ResponseCall}
    (h : r.respHeaderSpan = r₀.respHeaderSpan ∨ ∃ span, .addHeaderSpan span ∈ calls) :
    (r.applyAll calls).respHeaderSpan = (r₀.applyAll calls).respHeaderSpan := by
  have hset : ∀ call : ResponseCall, (∃ span, call = .addHeaderSpan span) →
      ∀ r r₀ : CoroHttpResponse,
        (r.apply call).respHeaderSpan = (r₀.apply call).respHeaderSpan := by
    rintro _ ⟨span, rfl⟩ r r₀
    rfl
  apply applyAll_agree respHeaderSpan hset
  · intro call hnot r
    cases call with
    | addHeaderSpan span => exact absurd ⟨span, rfl⟩ hnot
    | _ => rfl
  · exact h.imp id fun ⟨span, hmem⟩ => ⟨_, hmem, span, rfl⟩

theorem contentType_applyAll {calls : List ResponseCall}
    (h : r.contentType = r₀.contentType ∨ ∃ n, .setContentType n ∈ calls) :
    (r.applyAll calls).contentType = (r₀.applyAll calls).contentType := by
  have hset : ∀ call : ResponseCall, (∃ n, call = .setContentType n) →
      ∀ r r₀ : CoroHttpResponse, (r.apply call).contentType = (r₀.apply call).contentType := by
    rintro _ ⟨n, rfl⟩ r r₀
    rfl
  apply applyAll_agree contentType hset
  · intro call hnot r
    cases call with
    | setContentType n => exact absurd ⟨n, rfl⟩ hnot
    | _ => rfl
  · exact h.imp id fun ⟨n, hmem⟩ => ⟨_, hmem, n, rfl⟩

theorem contentView_applyAll {calls : List ResponseCall}
    (h : r.contentView = r₀.contentView ∨
      ∃ status content, .setStatusAndContentView status content ∈ calls) :
    (r.applyAll calls).contentView = (r₀.applyAll calls).contentView := by
  have hset : ∀ call : ResponseCall,
      (∃ status content, call = .setStatusAndContentView status content) →
      ∀ r r₀ : CoroHttpResponse, (r.apply call).contentView = (r₀.apply call).contentView := by
    rintro _ ⟨status, content, rfl⟩ r r₀
    rfl
  apply applyAll_agree contentView hset
  · intro call hnot r
    cases call with
    | setStatusAndContentView status content => exact absurd ⟨status, content, rfl⟩ hnot
    | _ => rfl
  · exact h.imp id fun ⟨status, content, hmem⟩ => ⟨_, hmem, status, content, rfl⟩

/-- No call delays a response. -/
theorem delay_applyAll (calls : List ResponseCall) : (r.applyAll calls).delay = r.delay := by
  induction calls generalizing r with
  | nil => rfl
  | cons call calls ih =>
    rw [CoroHttpResponse.applyAll, List.foldl_cons]
    exact ih.trans (by cases call <;> rfl)

/-- The view is not looked at: there is content, or the text of the status takes its place. -/
def HidesView (r : CoroHttpResponse) : Prop :=
  r.content ≠ [] ∨ r.hasSetContent = false ∧ r.fmtType = .normal

theorem prepare_content_ne_nil (h : r.HidesView) : r.prepare.content ≠ [] := by
  rw [prepare]
  dsimp only
  split_ifs with hdefault
  · exact defaultStatusContent_ne_nil r.status
  · obtain hcontent | ⟨hset, hfmt⟩ := h
    · exact hcontent
    · intro hnil
      exact hdefault ⟨hnil, hset, by rw [hfmt]; decide⟩

theorem SameReset.prepare (h : r.SameReset r₀) (hspan : r.respHeaderSpan = r₀.respHeaderSpan) :
    r.prepare.SameReset r₀.prepare := by
  obtain ⟨hstatus, hfmt, hcontent, hkeep, hdelay, hheaders, hset, hdate, hcookies⟩ := h
  constructor <;>
    simp only [CoroHttpResponse.prepare, hasName, defaultStatusContent, hstatus, hfmt, hcontent,
      hkeep, hdelay, hheaders, hset, hdate, hcookies, hspan]

/-- Behind what is done first, the head and the body are as the members say. -/
theorem SameReset.respHead_eq (h : r.SameReset r₀) (hspan : r.respHeaderSpan = r₀.respHeaderSpan)
    (htype : r.contentType = r₀.contentType)
    (hview : r.contentView = r₀.contentView ∨ r₀.content ≠ []) :
    r.respHead clock = r₀.respHead clock ∧ r.body = r₀.body := by
  obtain ⟨-, hfmt, hcontent, hkeep, -, hheaders, -, hdate, hcookies⟩ := h
  have hname : ∀ name, r.hasName name = r₀.hasName name := by
    intro name
    rw [hasName, hasName, hheaders, hspan]
  have hserver : r.serverLine = r₀.serverLine := by
    rw [serverLine, serverLine, hname]
  have hconnection : r.connectionLine = r₀.connectionLine := by
    rw [connectionLine, connectionLine, hkeep]
  have hwith : r.withCookies clock = r₀.withCookies clock := by
    rw [withCookies, withCookies, hfmt, hheaders, hcookies]
  have hframing : r.framing = r₀.framing := by
    rw [framing, framing, hfmt, hname, hcontent]
    obtain hview | hview := hview
    · rw [hview]
    · rw [if_pos hview, if_pos hview]
  have hbody : r.body = r₀.body := by
    have hcontent' : ∀ content, r.handleContent content = r₀.handleContent content := by
      intro content
      rw [handleContent, handleContent, hfmt]
    rw [body, body, hcontent, hcontent', hcontent']
    obtain hview | hview := hview
    · rw [hview]
    · rw [if_pos hview, if_pos hview]
  constructor
  · rw [respHead, respHead, hserver, hframing, dateLine, dateLine, hdate, hconnection, htype, hwith,
      hspan]
  · exact hbody

/-- Responses that are set alike have one text. -/
theorem SameReset.toBuffers_eq (h : r.SameReset r₀) (hspan : r.respHeaderSpan = r₀.respHeaderSpan)
    (htype : r.contentType = r₀.contentType)
    (hview : r.contentView = r₀.contentView ∨ r₀.HidesView) :
    r.toBuffers clock = r₀.toBuffers clock := by
  obtain ⟨hhead, hbody⟩ := (h.prepare hspan).respHead_eq hspan htype
    (hview.imp id prepare_content_ne_nil)
  rw [toBuffers, toBuffers, h.status, hhead, hbody]

end CoroHttpResponse

end Yalantinglibs.Cinatra
