import Yalantinglibs.Cinatra.CoroHttpRequest
import Yalantinglibs.Cinatra.CoroHttpResponse

/-!
# A connection of the HTTP server

`coro_http_router.hpp` and the loop of `coro_http_connection.hpp`. A round of the loop reads a head
and a body, finds the handlers, and writes a response. Where there is more in the buffer behind the
request, further heads are answered at once, by handlers of exact routes alone, and all that is left
in the buffer is dropped.

A handler is a function from what it sees to the calls it makes. Handlers that read or write on the
connection themselves, delayed responses, sessions and failed writes are not modelled.

## Main definitions

* `CoroHttpRouter`, `CoroHttpRouter.dispatch` — the handlers that a request is given to
* `CoroHttpConnection.round` — a round of the loop, `none` where it waits for more
* `CoroHttpConnection.start` — the loop, until it waits or the connection is closed
-/

set_option autoImplicit false

namespace Yalantinglibs.Cinatra

open SegmentedStream RadixTree

/-! ### The router -/

/-- What a handler does: the calls on the response, and whether it asks for an upgrade. -/
structure HandlerCalls where
  calls : List ResponseCall
  asksUpgrade : Bool := false
  deriving DecidableEq, Repr

abbrev Handler := SeenRequest → HandlerCalls

/-- A regular expression: the groups of a text that matches. -/
abbrev Regex := Bytes → Option (List Bytes)

structure CoroHttpRouter where
  mapHandles : Bytes → Option Handler
  coroHandles : Bytes → Option Handler
  routerTree : Node Handler
  coroRouterTree : Node Handler
  coroRegexHandles : List (Regex × Handler)
  regexHandles : List (Regex × Handler)
  defaultHandler : Option Handler

/-- The request behind the handlers that were called, what these saw, and their calls. -/
structure Dispatched where
  request : CoroHttpRequest
  seen : List SeenRequest := []
  calls : List ResponseCall := []

namespace Dispatched

variable (d : Dispatched) (parser : HttpParser)

def call (handler : Handler) : Dispatched :=
  let seen := d.request.seen parser
  { request := if (handler seen).asksUpgrade then (d.request.isUpgrade parser).1 else d.request
    seen := d.seen ++ [seen]
    calls := d.calls ++ (handler seen).calls }

/-- Call the handler that was found, where there is one. -/
def callFound : Option Handler → Dispatched
  | some handler => d.call parser handler
  | none => { d with calls := d.calls ++ [.setStatus .notFound] }

/-- `std::regex_match`, which sets the groups also where there is no match, and the handler. -/
def tryRegex (key : Bytes) (entry : Regex × Handler) : Dispatched :=
  let d' := { d with request := { d.request with regexMatches := (entry.1 key).getD [] } }
  if (entry.1 key).isSome then d'.call parser entry.2 else d'

def tryRegexes (key : Bytes) (entries : List (Regex × Handler)) : Dispatched :=
  entries.foldl (fun d entry => d.tryRegex parser key entry) d

end Dispatched

/-- `url_decode`. -/
def urlDecode : Bytes → Bytes
  | [] => []
  | 37 :: hi :: lo :: rest =>
    match hexVal hi, hexVal lo with
    | some h, some l => .ofNat (16 * h + l) :: urlDecode rest
    | _, _ => [63]
  | c :: rest => if c = 37 then [63] else (if c = 43 then 32 else c) :: urlDecode rest

/-- The result of a search in a tree. A tree that `insert` has built always has one. -/
def treeFind (tree : Node Handler) (method path : Bytes) : Node.ParseResult Handler :=
  (tree.get method path fun _ => none).getD {}

/-- The method and the path of a request, with a space between them. -/
def routeKey (parser : HttpParser) : Bytes := parser.method ++ 32 :: parser.url

/-- The key that exact routes and regular expressions are looked up with. -/
def lookupKey (parser : HttpParser) : Bytes :=
  if parser.url.contains 37 then urlDecode (routeKey parser) else routeKey parser

namespace CoroHttpRouter

variable (router : CoroHttpRouter) (parser : HttpParser)

/-- The handler of an exact route. -/
def exact (key : Bytes) : Option Handler := (router.mapHandles key).or (router.coroHandles key)

/-- The regular expressions, and the handler for what none of them matches. -/
def dispatchRegex (key : Bytes) (request : CoroHttpRequest) : Dispatched :=
  let coro := Dispatched.tryRegexes ⟨request, [], []⟩ parser key router.coroRegexHandles
  let d := if coro.seen.isEmpty then coro.tryRegexes parser key router.regexHandles else coro
  if d.seen.isEmpty then d.callFound parser router.defaultHandler else d

/-- The handlers that a request is given to. A route that is not exact sets the parameters, the
first tree also where it has no such route. -/
def dispatch (request : CoroHttpRequest) : Dispatched :=
  match router.exact (lookupKey parser) with
  | some handler => Dispatched.call ⟨request, [], []⟩ parser handler
  | none =>
    let result := treeFind router.routerTree parser.method (routeKey parser)
    if result.found then
      Dispatched.callFound ⟨{ request with params := result.params }, [], []⟩ parser result.handler
    else
      let result := treeFind router.coroRouterTree parser.method (routeKey parser)
      let request := { request with params := result.params }
      if result.found then Dispatched.callFound ⟨request, [], []⟩ parser result.handler
      else router.dispatchRegex parser (lookupKey parser) request

end CoroHttpRouter

/-! ### The connection -/

/-- What a server gives to its connections. -/
structure HttpServer where
  router : CoroHttpRouter
  maxHttpBodyLen : ℤ := 2 ^ 63 - 1
  clock : Clock
  /-- `Sec-WebSocket-Accept` for a key: the hash of the key and `ws_guid`, in base 64. -/
  acceptKey : Bytes → Bytes

/-- What the handlers saw of a request, and what was written for it: nothing behind a handshake. -/
structure Answer where
  seen : List SeenRequest
  text : Bytes

/-- The members, the segments that are still to come, and the answers so far. -/
structure CoroHttpConnection where
  headBuf : Bytes := []
  input : List Bytes := []
  parser : HttpParser := {}
  request : CoroHttpRequest := {}
  response : CoroHttpResponse := {}
  closed : Bool := false
  answers : List Answer := []

/-- `TWO_CRCF`. -/
def twoCrcf : Bytes := [13, 10, 13, 10]

/-- The body of a request: what the buffer has of it, without what is behind it there, and the rest
from the segments. The body of a chunked or multipart request is left to its handler. -/
def readBody (streams : Bool) (bodyLen : ℕ) (headBuf : Bytes) (input : List Bytes) :
    Option (Bytes × Bytes × List Bytes) :=
  if streams ∨ bodyLen = 0 then some ([], headBuf, input)
  else if bodyLen ≤ headBuf.length then some (headBuf.take bodyLen, [], input)
  else
    (readExactly (bodyLen - headBuf.length) input).map fun (more, input) =>
      (headBuf ++ more, [], input)

namespace HttpServer

variable (server : HttpServer)

/-- The calls of `build_ws_handshake_head`. -/
def wsHandshakeCalls (parser : HttpParser) : List ResponseCall :=
  let protocol := parser.getHeaderValue (ascii "sec-websocket-protocol")
  let accept := server.acceptKey (parser.getHeaderValue (ascii "sec-websocket-key"))
  [.setStatusAndContent .switchingProtocols [], .addHeader ⟨ascii "Upgrade", ascii "WebSocket"⟩,
    .addHeader ⟨ascii "Connection", ascii "Upgrade"⟩,
    .addHeader ⟨ascii "Sec-WebSocket-Accept", accept⟩] ++
    if protocol = [] then [] else [.addHeader ⟨ascii "Sec-WebSocket-Protocol", protocol⟩]

/-- The request that follows in the buffer is answered with objects of its own. Its route has to be
exact, and its body is not looked at. -/
def answerNext (needDate : Bool) (parser : HttpParser) : Answer :=
  let d :=
    match server.router.exact (routeKey parser) with
    | some handler => Dispatched.call ⟨{}, [], []⟩ parser handler
    | none => ⟨{}, [], [.setStatus .notFound]⟩
  let response := (({} : CoroHttpResponse).apply (.needDateHead needDate)).applyAll d.calls
  ⟨d.seen, (response.buildRespStr server.clock).1⟩

/-- The heads that follow in the buffer, with a bound on their number. The loop ends where there is
no complete one; a head that cannot be parsed ends the connection. -/
def answerBuffered (needDate : Bool) : ℕ → Bytes → List Answer × Bool
  | 0, _ => ([], true)
  | rounds + 1, headBuf =>
    match endOf twoCrcf headBuf with
    | none => ([], true)
    | some size =>
      let (parser, headLen) := ({} : HttpParser).parseRequest headBuf
      if headLen ≤ 0 then ([], false)
      else
        let (answers, ok) := answerBuffered needDate rounds (headBuf.drop size)
        (server.answerNext needDate parser :: answers, ok)

end HttpServer

namespace CoroHttpConnection

variable (server : HttpServer) (c : CoroHttpConnection)

/-- Write the response. -/
def reply (seen : List SeenRequest) (response : CoroHttpResponse) : CoroHttpConnection :=
  { c with answers := c.answers ++ [⟨seen, response.toBuffers server.clock⟩] }

def close : CoroHttpConnection := { c with closed := true }

/-- A request that is not accepted. -/
def refuse (content : Bytes) : CoroHttpConnection :=
  (c.reply server [] (c.response.setStatusAndContent .badRequest content)).close

/-- A request for a websocket is answered before its handler is called. -/
def handshake : CoroHttpConnection :=
  let (request, upgrade) := c.request.isUpgrade c.parser
  let c := { c with request := request }
  if upgrade then
    let response := c.response.applyAll (server.wsHandshakeCalls c.parser)
    { c.reply server [] response with response := { response.prepare with delay := true } }
  else c

/-- What a round does behind the handlers: the response is written, and with it those to the
requests that follow in the buffer; what is left in the buffer is dropped. The flag is false where
the loop ends without the rest of the round. -/
def respond (type : ContentType) (seen : List SeenRequest) : CoroHttpConnection × Bool :=
  if c.response.delay then ({ c with answers := c.answers ++ [⟨seen, []⟩] }, true)
  else if c.headBuf = [] then (c.reply server seen c.response, true)
  else if type.streams then
    let response :=
      if c.response.content = [] then
        c.response.setStatusAndContent .notImplemented
          (ascii "mutipart handler not implemented or incorrect implemented")
      else c.response
    ((c.reply server seen response).close, false)
  else if c.parser.method.head? ≠ some 71 ∧ c.parser.method.head? ≠ some 72 then
    let response := c.response.setStatusAndContent .methodNotAllowed (ascii "method not allowed")
    ({ c.reply server seen response with headBuf := [] }, true)
  else
    let (text, response) := c.response.buildRespStr server.clock
    match server.answerBuffered response.needDate c.headBuf.length c.headBuf with
    | (answers, true) =>
      ({ c with headBuf := [], answers := c.answers ++ ⟨seen, text⟩ :: answers }, true)
    | (_, false) => (({ c with response := response } : CoroHttpConnection).refuse server
        (ascii "invalid http protocol"), false)

/-- The request is asked whether it is for a websocket where it is a `GET` without a body. -/
def handshakeIfGet : CoroHttpConnection :=
  if !(c.request.getContentType c.parser).streams && c.parser.bodyLen = 0 &&
      c.parser.method = ascii "GET" then
    c.handshake server
  else c

/-- The end of a round. -/
def endRound : CoroHttpConnection × Bool → CoroHttpConnection
  | (c, true) =>
    { c with
      closed := c.parser.flags.hasClose
      response := c.response.clear
      request := c.request.clear }
  | (c, false) => c

/-- The handlers are called, and the response is written. -/
def callHandlers (type : ContentType) (body : Bytes) : CoroHttpConnection :=
  let read := if body = [] then (c.request, c.parser) else c.request.setBody c.parser body
  let d := server.router.dispatch read.2 read.1
  let response := c.response.applyAll d.calls
  endRound
    (({ c with parser := read.2, request := d.request, response := response } :
      CoroHttpConnection).respond server type d.seen)

/-- What a round does with a request that was read. -/
def handle (body : Bytes) : CoroHttpConnection :=
  (c.handshakeIfGet server).callHandlers server (c.request.getContentType c.parser) body

/-- A round of the loop. -/
def round : Option CoroHttpConnection :=
  if c.closed then none
  else
    match readUntil twoCrcf c.headBuf c.input with
    | none => none
    | some (size, buf, input) =>
      let (parser, headLen) := c.parser.parseRequest (buf.take size)
      let c := { c with headBuf := buf, input := input, parser := parser }
      if headLen ≤ 0 then some (c.refuse server (ascii "invalid http protocol"))
      else if server.maxHttpBodyLen < parser.bodyLen ∨ parser.bodyLen < 0 then
        some (c.refuse server (ascii "invalid http content length"))
      else
        let streams := (c.request.getContentType parser).streams
        match readBody streams parser.bodyLen.toNat (buf.drop size) input with
        | none => none
        | some (body, left, input) =>
          some ({ c with headBuf := left, input := input }.handle server body)

/-- The bytes that the connection has not used up. -/
def pending : ℕ := (c.headBuf ++ c.input.flatten).length

def rounds : ℕ → CoroHttpConnection → CoroHttpConnection
  | 0, c => c
  | n + 1, c =>
    match c.round server with
    | none => c
    | some c => rounds n c

/-- The loop, until it waits for more or the connection is closed. A round uses up a byte at
least. -/
def start : CoroHttpConnection := rounds server c.pending c

/-- The loop with segments that arrive. -/
def receive (segs : List Bytes) : CoroHttpConnection :=
  { c with input := c.input ++ segs }.start server

end CoroHttpConnection

end Yalantinglibs.Cinatra
