import Yalantinglibs.Cinatra.HttpParser
import Yalantinglibs.Cinatra.RadixTree

/-!
# The request of a connection

`coro_http_request.hpp`. A connection has one request object, over its parser. `clear` is called
between two requests; it does not reset the parameters of a route, what a regular expression
matched, or that the connection was asked to become a websocket.

Sessions, and what aspects and users store in a request, are not modelled.

## Main definitions

* `CoroHttpRequest` — the members, without the parser
* `SeenRequest` — all that a handler can ask a request for
-/

set_option autoImplicit false

namespace Yalantinglibs.Cinatra

open RadixTree

inductive ContentType
  | string | multipart | urlencoded | chunked | octetStream | websocket | unknown
  deriving DecidableEq, Repr

/-- A body of such a type is left to the handler. -/
def ContentType.streams : ContentType → Bool
  | .chunked | .multipart => true
  | _ => false

structure CoroHttpRequest where
  params : Node.Params := fun _ => none
  regexMatches : List Bytes := []
  body : Bytes := []
  isWebsocket : Bool := false

namespace CoroHttpRequest

variable (req : CoroHttpRequest) (parser : HttpParser)

/-- `get_content_type`. -/
def getContentType : ContentType :=
  let contentType := parser.getHeaderValue (ascii "content-type")
  if parser.isChunked then .chunked
  else if contentType ≠ [] then
    if ascii "application/x-www-form-urlencoded" <:+: contentType then .urlencoded
    else if ascii "multipart/form-data" <:+: contentType then .multipart
    else if ascii "application/octet-stream" <:+: contentType then .octetStream
    else .string
  else if req.isWebsocket then .websocket
  else .unknown

/-- `set_body`. A form adds its pairs to those of the query. -/
def setBody (body : Bytes) : CoroHttpRequest × HttpParser :=
  let req := { req with body := body }
  (req,
    if req.getContentType parser = .urlencoded then
      { parser with queries := parseQuery parser.queries body }
    else parser)

/-- What the head must be like for `is_upgrade`. -/
def asksWebsocket (parser : HttpParser) : Bool :=
  parser.flags.hasUpgrade && parser.getHeaderValue (ascii "Upgrade") = ascii "websocket" &&
    (parser.getHeaderValue (ascii "sec-websocket-key")).length = 24

/-- `is_upgrade` remembers that it was true. -/
def isUpgrade : CoroHttpRequest × Bool :=
  if asksWebsocket parser then ({ req with isWebsocket := true }, true) else (req, false)

/-- `clear`. -/
def clear : CoroHttpRequest := { req with body := [] }

variable {parser parser' : HttpParser} {req req' : CoroHttpRequest}

/-- Whether the body is left to the handler is a matter of the head. -/
theorem streams_congr (h : parser.headers = parser'.headers) :
    (req.getContentType parser).streams = (req'.getContentType parser').streams := by
  simp only [getContentType, HttpParser.isChunked, HttpParser.getHeaderValue, h]
  -- the branches that look at the request are alike
  cases req.isWebsocket <;> cases req'.isWebsocket <;>
    split_ifs <;> simp_all [ContentType.streams]

theorem getContentType_congr (h : parser.headers = parser'.headers)
    (hwebsocket : req.isWebsocket = req'.isWebsocket) :
    req.getContentType parser = req'.getContentType parser' := by
  have hvalue : ∀ key, parser.getHeaderValue key = parser'.getHeaderValue key := by
    intro key
    rw [HttpParser.getHeaderValue, HttpParser.getHeaderValue, h]
  rw [getContentType, getContentType, HttpParser.isChunked, HttpParser.isChunked, hvalue, hvalue,
    hwebsocket]

/-- The head names a type, so that a websocket is not asked for. -/
def NamesType (parser : HttpParser) : Prop :=
  parser.isChunked ∨ parser.getHeaderValue (ascii "content-type") ≠ []

theorem getContentType_of_namesType (h : NamesType parser) :
    req.getContentType parser = req'.getContentType parser := by
  rw [getContentType, getContentType]
  obtain hchunked | htype := h
  · rw [if_pos hchunked, if_pos hchunked]
  · rw [if_pos htype, if_pos htype]

end CoroHttpRequest

/-- All that a handler can ask a request for. -/
structure SeenRequest where
  method : Bytes
  url : Bytes
  fullUrl : Bytes
  headers : List HttpHeader
  queries : List (Bytes × Bytes)
  body : Bytes
  params : Node.Params
  regexMatches : List Bytes
  contentType : ContentType
  isUpgrade : Bool

/-- What a handler sees of a request. -/
def CoroHttpRequest.seen (req : CoroHttpRequest) (parser : HttpParser) : SeenRequest where
  method := parser.method
  url := parser.url
  fullUrl := parser.fullUrl
  headers := parser.headers
  queries := parser.queries
  body := req.body
  params := req.params
  regexMatches := req.regexMatches
  contentType := req.getContentType parser
  isUpgrade := CoroHttpRequest.asksWebsocket parser

end Yalantinglibs.Cinatra
