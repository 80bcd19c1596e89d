import Mathlib.Data.List.Induction
import Yalantinglibs.Cinatra.HttpExchange

/-!
# What a connection remembers

Requests are sent over a connection one after another. Whatever the handlers of one of them do, the
next one should find the connection like a fresh one. Three members of the response, three of the
request and the flags of the parser are left as they are between two requests, and this file says
which of them a request can notice.

## Main definitions

* `Arrival` — a request, and the segments it arrives in
* `Independent` — the answer is that of a fresh connection
* `Unaffected` — nothing that is left from before is noticed

## Main results

* `independent_of_unaffected` — in a run where nothing that is left is noticed, every answer is that
  of a fresh connection
-/

set_option autoImplicit false

namespace Yalantinglibs.Cinatra

open SegmentedStream RadixTree

/-! ### Requests that look alike -/

/-- Nothing but what routes have left tells the two requests apart. -/
structure Alike (parser parser₀ : HttpParser) (req req₀ : CoroHttpRequest) : Prop where
  headers : parser.headers = parser₀.headers
  method : parser.method = parser₀.method
  url : parser.url = parser₀.url
  fullUrl : parser.fullUrl = parser₀.fullUrl
  queries : parser.queries = parser₀.queries
  asks : CoroHttpRequest.asksWebsocket parser = CoroHttpRequest.asksWebsocket parser₀
  body : req.body = req₀.body
  contentType : req.getContentType parser = req₀.getContentType parser₀

/-- The handlers saw the same, and made the same calls. -/
structure SameDispatch (parser parser₀ : HttpParser) (d d₀ : Dispatched) : Prop where
  seen : d.seen = d₀.seen
  calls : d.calls = d₀.calls
  alike : Alike parser parser₀ d.request d₀.request
  params : d.request.params = d₀.request.params
  regexMatches : d.request.regexMatches = d₀.request.regexMatches

section Dispatch

variable {parser parser₀ : HttpParser} {req req₀ : CoroHttpRequest} {d d₀ : Dispatched}

theorem Alike.isUpgrade (h : Alike parser parser₀ req req₀) :
    Alike parser parser₀ (req.isUpgrade parser).1 (req₀.isUpgrade parser₀).1 := by
  rw [CoroHttpRequest.isUpgrade, CoroHttpRequest.isUpgrade, ← h.asks]
  split_ifs
  · exact { h with contentType := CoroHttpRequest.getContentType_congr h.headers rfl }
  · exact h

theorem isUpgrade_params : (req.isUpgrade parser).1.params = req.params := by
  rw [CoroHttpRequest.isUpgrade]
  split_ifs <;> rfl

theorem isUpgrade_regexMatches :
    (req.isUpgrade parser).1.regexMatches = req.regexMatches := by
  rw [CoroHttpRequest.isUpgrade]
  split_ifs <;> rfl

theorem Alike.seen (h : Alike parser parser₀ req req₀) (hparams : req.params = req₀.params)
    (hmatches : req.regexMatches = req₀.regexMatches) : req.seen parser = req₀.seen parser₀ := by
  obtain ⟨hheaders, hmethod, hurl, hfull, hqueries, hasks, hbody, htype⟩ := h
  simp only [CoroHttpRequest.seen, hheaders, hmethod, hurl, hfull, hqueries, hasks, hbody, htype,
    hparams, hmatches]

/-- What routes have left is of no matter to how the requests are alike. -/
theorem Alike.withRoute (h : Alike parser parser₀ req req₀) (params params₀ : Node.Params)
    (found found₀ : List Bytes) :
    Alike parser parser₀ { req with params := params, regexMatches := found }
      { req₀ with params := params₀, regexMatches := found₀ } :=
  ⟨h.headers, h.method, h.url, h.fullUrl, h.queries, h.asks, h.body, h.contentType⟩

namespace SameDispatch

theorem call (h : SameDispatch parser parser₀ d d₀) (handler : Handler) :
    SameDispatch parser parser₀ (d.call parser handler) (d₀.call parser₀ handler) := by
  have hseen := h.alike.seen h.params h.regexMatches
  rw [Dispatched.call, Dispatched.call, hseen]
  constructor
  · simp only [h.seen]
  · simp only [h.calls]
  · dsimp only
    split_ifs
    · exact h.alike.isUpgrade
    · exact h.alike
  · dsimp only
    split_ifs
    · rw [isUpgrade_params, isUpgrade_params, h.params]
    · exact h.params
  · dsimp only
    split_ifs
    · rw [isUpgrade_regexMatches, isUpgrade_regexMatches, h.regexMatches]
    · exact h.regexMatches

theorem callFound (h : SameDispatch parser parser₀ d d₀) (handler : Option Handler) :
    SameDispatch parser parser₀ (d.callFound parser handler) (d₀.callFound parser₀ handler) := by
  cases handler with
  | some handler => exact h.call handler
  | none =>
    have hcalls : d.calls ++ [.setStatus .notFound] = d₀.calls ++ [.setStatus .notFound] := by
      rw [h.calls]
    exact ⟨h.seen, hcalls, h.alike, h.params, h.regexMatches⟩

/-- A regular expression sets the groups, whatever they were. -/
theorem tryRegex (hseen : d.seen = d₀.seen) (hcalls : d.calls = d₀.calls)
    (halike : Alike parser parser₀ d.request d₀.request)
    (hparams : d.request.params = d₀.request.params) (key : Bytes) (entry : Regex × Handler) :
    SameDispatch parser parser₀ (d.tryRegex parser key entry) (d₀.tryRegex parser₀ key entry) := by
  have hset : SameDispatch parser parser₀
      { d with request := { d.request with regexMatches := (entry.1 key).getD [] } }
      { d₀ with request := { d₀.request with regexMatches := (entry.1 key).getD [] } } :=
    ⟨hseen, hcalls, halike.withRoute _ _ _ _, hparams, rfl⟩
  rw [Dispatched.tryRegex, Dispatched.tryRegex]
  dsimp only
  split_ifs
  · exact hset.call entry.2
  · exact hset

theorem tryRegexes (h : SameDispatch parser parser₀ d d₀) (key : Bytes)
    (entries : List (Regex × Handler)) :
    SameDispatch parser parser₀ (d.tryRegexes parser key entries)
      (d₀.tryRegexes parser₀ key entries) := by
  induction entries generalizing d d₀ with
  | nil => exact h
  | cons entry entries ih => exact ih (tryRegex h.seen h.calls h.alike h.params key entry)

end SameDispatch

variable {router : CoroHttpRouter}

/-- The groups that are left are not looked at where there is a regular expression to set them. -/
theorem SameDispatch.tryRegexes_cons (h : Alike parser parser₀ req req₀)
    (hparams : req.params = req₀.params) (key : Bytes) {entries : List (Regex × Handler)}
    (hne : entries ≠ []) :
    SameDispatch parser parser₀ (Dispatched.tryRegexes ⟨req, [], []⟩ parser key entries)
      (Dispatched.tryRegexes ⟨req₀, [], []⟩ parser₀ key entries) := by
  obtain ⟨entry, entries, rfl⟩ := List.exists_cons_of_ne_nil hne
  have hfirst : SameDispatch parser parser₀ (Dispatched.tryRegex ⟨req, [], []⟩ parser key entry)
      (Dispatched.tryRegex ⟨req₀, [], []⟩ parser₀ key entry) :=
    @SameDispatch.tryRegex parser parser₀ ⟨req, [], []⟩ ⟨req₀, [], []⟩ rfl rfl h hparams key entry
  exact hfirst.tryRegexes key entries

/-- What no handler was called for goes to the default handler. -/
theorem SameDispatch.orDefault (h : SameDispatch parser parser₀ d d₀) (handler : Option Handler) :
    SameDispatch parser parser₀ (if d.seen.isEmpty then d.callFound parser handler else d)
      (if d₀.seen.isEmpty then d₀.callFound parser₀ handler else d₀) := by
  rw [h.seen]
  split_ifs
  · exact h.callFound handler
  · exact h

/-- The regular expressions look at the groups that are left only where there is none of them. -/
theorem dispatchRegex_same (h : Alike parser parser₀ req req₀) (hparams : req.params = req₀.params)
    (hmatches : req.regexMatches = req₀.regexMatches ∨
      router.coroRegexHandles ≠ [] ∨ router.regexHandles ≠ []) (key : Bytes) :
    SameDispatch parser parser₀ (router.dispatchRegex parser key req)
      (router.dispatchRegex parser₀ key req₀) := by
  -- behind both lists, the groups have been set where they differed
  have hcoro : SameDispatch parser parser₀
      (Dispatched.tryRegexes ⟨req, [], []⟩ parser key router.coroRegexHandles)
      (Dispatched.tryRegexes ⟨req₀, [], []⟩ parser₀ key router.coroRegexHandles) ∨
      router.coroRegexHandles = [] ∧ router.regexHandles ≠ [] := by
    by_cases hne : router.coroRegexHandles = []
    · obtain hmatches | hcoro | hregex := hmatches
      · left
        have hstart : SameDispatch parser parser₀ ⟨req, [], []⟩ ⟨req₀, [], []⟩ :=
          ⟨rfl, rfl, h, hparams, hmatches⟩
        exact hstart.tryRegexes key _
      · exact absurd hne hcoro
      · exact .inr ⟨hne, hregex⟩
    · exact .inl (SameDispatch.tryRegexes_cons h hparams key hne)
  apply SameDispatch.orDefault
  obtain hcoro | ⟨hnil, hregex⟩ := hcoro
  · rw [hcoro.seen]
    split_ifs
    · exact hcoro.tryRegexes key _
    · exact hcoro
  · rw [hnil]
    exact SameDispatch.tryRegexes_cons h hparams key hregex

/-- The request goes on to the regular expressions, and there are some. -/
def AsksRegex (router : CoroHttpRouter) (parser : HttpParser) : Prop :=
  router.exact (lookupKey parser) = none ∧
    (treeFind router.routerTree parser.method (routeKey parser)).found = false ∧
    (treeFind router.coroRouterTree parser.method (routeKey parser)).found = false ∧
    (router.coroRegexHandles ≠ [] ∨ router.regexHandles ≠ [])

/-- What earlier routes have left is set anew before a handler is called: the parameters by every
route that is not exact, the groups by a regular expression. -/
structure RouteForgets (router : CoroHttpRouter) (parser : HttpParser) (req : CoroHttpRequest) :
    Prop where
  params : (router.exact (lookupKey parser)).isSome → req.params = fun _ => none
  regexMatches : req.regexMatches = [] ∨ AsksRegex router parser

theorem dispatch_same (h : Alike parser parser₀ req req₀) (hparams₀ : req₀.params = fun _ => none)
    (hmatches₀ : req₀.regexMatches = []) (hleft : RouteForgets router parser₀ req) :
    SameDispatch parser parser₀ (router.dispatch parser req) (router.dispatch parser₀ req₀) := by
  have hroute : routeKey parser = routeKey parser₀ := by
    rw [routeKey, routeKey, h.method, h.url]
  have hkey : lookupKey parser = lookupKey parser₀ := by
    rw [lookupKey, lookupKey, h.url, hroute]
  have hstart : ∀ params, req.regexMatches = [] →
      SameDispatch parser parser₀ ⟨{ req with params := params }, [], []⟩
        ⟨{ req₀ with params := params }, [], []⟩ := by
    intro params hmatches
    exact ⟨rfl, rfl, h.withRoute params params _ _, rfl, hmatches.trans hmatches₀.symm⟩
  rw [CoroHttpRouter.dispatch, CoroHttpRouter.dispatch, hkey, hroute, h.method]
  cases hexact : router.exact (lookupKey parser₀) with
  | some handler =>
    have hparams : req.params = fun _ => none := hleft.params (by rw [hexact]; rfl)
    have hmatches : req.regexMatches = [] := by
      obtain hmatches | hasks := hleft.regexMatches
      · exact hmatches
      · rw [hasks.1] at hexact
        cases hexact
    have hsame : SameDispatch parser parser₀ ⟨req, [], []⟩ ⟨req₀, [], []⟩ :=
      ⟨rfl, rfl, h, hparams.trans hparams₀.symm, hmatches.trans hmatches₀.symm⟩
    exact hsame.call handler
  | none =>
    dsimp only
    split_ifs with htree hcoro
    · obtain hmatches | hasks := hleft.regexMatches
      · exact (hstart _ hmatches).callFound _
      · rw [hasks.2.1] at htree
        cases htree
    · obtain hmatches | hasks := hleft.regexMatches
      · exact (hstart _ hmatches).callFound _
      · rw [hasks.2.2.1] at hcoro
        cases hcoro
    · apply dispatchRegex_same (h.withRoute _ _ req.regexMatches req₀.regexMatches) rfl
      obtain hmatches | hasks := hleft.regexMatches
      · exact .inl (hmatches.trans hmatches₀.symm)
      · exact .inr hasks.2.2.2

end Dispatch

/-! ### The answers to a request with nothing behind it -/

/-- Whether a request is answered as one for a websocket. -/
def asksHandshake (request : CoroHttpRequest) (parser : HttpParser) : Bool :=
  !(request.getContentType parser).streams && parser.bodyLen = 0 &&
    parser.method = ascii "GET" && CoroHttpRequest.asksWebsocket parser

/-- The request and the parser that the handlers are given. -/
def readRequest (request : CoroHttpRequest) (parser : HttpParser) (body : Bytes) :
    CoroHttpRequest × HttpParser :=
  let request :=
    if asksHandshake request parser then { request with isWebsocket := true } else request
  if body = [] then (request, parser) else request.setBody parser body

/-- What the handlers of a request do. -/
def HttpServer.dispatched (server : HttpServer) (request : CoroHttpRequest) (parser : HttpParser)
    (body : Bytes) : Dispatched :=
  server.router.dispatch (readRequest request parser body).2 (readRequest request parser body).1

/-- The calls that set the response: those of the handlers, or of the handshake. -/
def HttpServer.responseCalls (server : HttpServer) (request : CoroHttpRequest)
    (parser : HttpParser) (body : Bytes) : List ResponseCall :=
  if asksHandshake request parser then server.wsHandshakeCalls parser
  else (server.dispatched request parser body).calls

/-- The answers where there is nothing behind the request in the buffer. -/
def HttpServer.answersTo (server : HttpServer) (request : CoroHttpRequest) (parser : HttpParser)
    (response : CoroHttpResponse) (body : Bytes) : List Answer :=
  let text := (response.applyAll (server.responseCalls request parser body)).toBuffers server.clock
  let seen := (server.dispatched request parser body).seen
  if asksHandshake request parser then [⟨[], text⟩, ⟨seen, []⟩] else [⟨seen, text⟩]

namespace CoroHttpConnection

variable {server : HttpServer} {c : CoroHttpConnection} {body : Bytes}

theorem readRequest_flags (request : CoroHttpRequest) (parser : HttpParser) (body : Bytes) :
    (readRequest request parser body).2.flags = parser.flags := by
  simp only [readRequest]
  split_ifs
  · rfl
  · rfl
  · simp only [CoroHttpRequest.setBody]
    split_ifs <;> rfl
  · simp only [CoroHttpRequest.setBody]
    split_ifs <;> rfl

/-- The state in which the handlers are called. -/
theorem handshakeIfGet_eq (server : HttpServer) (c : CoroHttpConnection) :
    c.handshakeIfGet server =
      if asksHandshake c.request c.parser then
        { c with
          request := { c.request with isWebsocket := true }
          response :=
            { (c.response.applyAll (server.wsHandshakeCalls c.parser)).prepare with delay := true }
          answers := c.answers ++
            [⟨[], (c.response.applyAll (server.wsHandshakeCalls c.parser)).toBuffers server.clock⟩] }
      else c := by
  simp only [handshakeIfGet, asksHandshake,
    Bool.and_eq_true (_ && _) (CoroHttpRequest.asksWebsocket c.parser)]
  by_cases hget : (!(c.request.getContentType c.parser).streams && c.parser.bodyLen = 0 &&
      c.parser.method = ascii "GET") = true
  · rw [if_pos hget, handshake, CoroHttpRequest.isUpgrade]
    by_cases hwebsocket : CoroHttpRequest.asksWebsocket c.parser = true
    · rw [if_pos hwebsocket, if_pos ⟨hget, hwebsocket⟩]
      rfl
    · rw [if_neg hwebsocket, if_neg fun h => hwebsocket h.2]
      rfl
  · rw [if_neg hget, if_neg fun h => hget h.1]

/-- The handlers behind a handshake write nothing. -/
theorem callHandlers_of_delay (type : ContentType) (hdelay : c.response.delay = true)
    {read : CoroHttpRequest × HttpParser}
    (hread : (if body = [] then (c.request, c.parser) else c.request.setBody c.parser body) = read) :
    c.callHandlers server type body =
      { c with
        parser := read.2
        request := (server.router.dispatch read.2 read.1).request.clear
        response := (c.response.applyAll (server.router.dispatch read.2 read.1).calls).clear
        closed := read.2.flags.hasClose
        answers := c.answers ++ [⟨(server.router.dispatch read.2 read.1).seen, []⟩] } := by
  rw [callHandlers, hread, respond, CoroHttpResponse.delay_applyAll, if_pos hdelay, endRound]

theorem callHandlers_of_headBuf (type : ContentType) (hbuf : c.headBuf = [])
    (hdelay : c.response.delay = false) {read : CoroHttpRequest × HttpParser}
    (hread : (if body = [] then (c.request, c.parser) else c.request.setBody c.parser body) = read) :
    c.callHandlers server type body =
      { c with
        parser := read.2
        request := (server.router.dispatch read.2 read.1).request.clear
        response := (c.response.applyAll (server.router.dispatch read.2 read.1).calls).clear
        closed := read.2.flags.hasClose
        answers := c.answers ++ [⟨(server.router.dispatch read.2 read.1).seen,
          (c.response.applyAll (server.router.dispatch read.2 read.1).calls).toBuffers
            server.clock⟩] } := by
  have hdelay' : ¬ c.response.delay = true := by
    rw [hdelay]
    decide
  rw [callHandlers, hread, respond, CoroHttpResponse.delay_applyAll, if_neg hdelay', if_pos hbuf,
    reply, endRound]

/-- What `handle` does where there is nothing behind the request in the buffer. -/
theorem handle_of_headBuf (hbuf : c.headBuf = []) (hdelay : c.response.delay = false) :
    ∃ response : CoroHttpResponse, c.handle server body =
      { c with
        parser := (readRequest c.request c.parser body).2
        request := (server.dispatched c.request c.parser body).request.clear
        response := response.clear
        closed := c.parser.flags.hasClose
        answers := c.answers ++ server.answersTo c.request c.parser c.response body } := by
  have hflags := readRequest_flags c.request c.parser body
  rw [handle, handshakeIfGet_eq, HttpServer.answersTo, HttpServer.responseCalls,
    HttpServer.dispatched, ← hflags]
  by_cases hasks : asksHandshake c.request c.parser = true
  · have hread : (if body = [] then ({ c.request with isWebsocket := true }, c.parser)
        else ({ c.request with isWebsocket := true } : CoroHttpRequest).setBody c.parser body) =
        readRequest c.request c.parser body := by
      rw [readRequest, if_pos hasks]
    rw [if_pos hasks, if_pos hasks, if_pos hasks, callHandlers_of_delay _ rfl hread]
    simp only [List.append_assoc, List.singleton_append]
    exact ⟨_, rfl⟩
  · have hread : (if body = [] then (c.request, c.parser) else c.request.setBody c.parser body) =
        readRequest c.request c.parser body := by
      rw [readRequest, if_neg hasks]
    rw [if_neg hasks, if_neg hasks, if_neg hasks, callHandlers_of_headBuf _ hbuf hdelay hread]
    exact ⟨_, rfl⟩

end CoroHttpConnection

/-! ### One request after another -/

/-- A request, and the segments it arrives in. -/
structure Arrival where
  request : RequestText
  segs : List Bytes
  cut : segs.flatten = request.text

/-- The calls that set the response to a request on a fresh connection. -/
def RequestText.calls (r : RequestText) (server : HttpServer) : List ResponseCall :=
  if r.Refused server then
    [.setStatusAndContent .badRequest (ascii "invalid http content length")]
  else server.responseCalls {} (r.parser {}) r.body

/-- The head names a websocket, whatever it says about the connection. -/
def RequestText.NamesWebsocket (r : RequestText) : Prop :=
  headerValue r.parsed.headers (ascii "Upgrade") = ascii "websocket" ∧
    (headerValue r.parsed.headers (ascii "sec-websocket-key")).length = 24

/-- The handlers of a request see nothing of what earlier requests have left. -/
structure RequestForgets (server : HttpServer) (c : CoroHttpConnection)
    (r : RequestText) : Prop where
  upgrade : c.parser.flags.hasUpgrade = true → r.flags.hasUpgrade = true ∨ ¬ r.NamesWebsocket
  websocket : c.request.isWebsocket = true →
    CoroHttpRequest.NamesType (r.parser {}) ∨ asksHandshake {} (r.parser {}) = true
  route : RouteForgets server.router (readRequest {} (r.parser {}) r.body).2 c.request

/-- The response shows nothing of what earlier responses have left. -/
structure ResponseForgets (server : HttpServer) (c : CoroHttpConnection) (r : RequestText) :
    Prop where
  contentType : c.response.contentType = [] ∨ ∃ n, .setContentType n ∈ r.calls server
  span : c.response.respHeaderSpan = [] ∨ ∃ span, .addHeaderSpan span ∈ r.calls server
  view : c.response.contentView = [] ∨
    (∃ status content, .setStatusAndContentView status content ∈ r.calls server) ∨
    (({} : CoroHttpResponse).applyAll (r.calls server)).HidesView

/-- Nothing that is left from before is noticed, and the server reads all of the request. -/
structure Unaffected (server : HttpServer) (c : CoroHttpConnection) (r : RequestText) : Prop where
  framed : ¬ r.Refused server → r.Framed
  request : ¬ r.Refused server → RequestForgets server c r
  response : ResponseForgets server c r

/-- The answer to a request, and whether the connection is kept open, are those of a fresh
connection. -/
def Independent (server : HttpServer) (c : CoroHttpConnection) (a : Arrival) : Prop :=
  (c.receive server a.segs).answers =
      c.answers ++ (({} : CoroHttpConnection).receive server a.segs).answers ∧
    (c.receive server a.segs).closed = (({} : CoroHttpConnection).receive server a.segs).closed

/-- The requests are sent one after another. -/
def serveAll (server : HttpServer) (arrivals : List Arrival) : CoroHttpConnection :=
  arrivals.foldl (fun c a => c.receive server a.segs) {}

/-- The state between two requests. -/
structure Idle (c : CoroHttpConnection) : Prop where
  headBuf : c.headBuf = []
  input : c.input.flatten = []
  hasClose : c.parser.flags.hasClose = false
  body : c.request.body = []
  response : c.response.SameReset {}

theorem idle_fresh : Idle {} := by
  constructor <;> try rfl
  constructor <;> rfl

/-! ### What a request sees -/

section Forgets

variable {server : HttpServer} {c : CoroHttpConnection} {r : RequestText}

theorem asksWebsocket_eq (h : RequestForgets server c r) :
    CoroHttpRequest.asksWebsocket (r.parser c.parser) =
      CoroHttpRequest.asksWebsocket (r.parser {}) := by
  by_cases hnames : r.NamesWebsocket
  · -- the flag decides, and it is set by the head or not at all
    have hflag : (r.parser c.parser).flags.hasUpgrade = (r.parser {}).flags.hasUpgrade := by
      change (c.parser.flags.hasUpgrade || r.flags.hasUpgrade) = (false || r.flags.hasUpgrade)
      cases hleft : c.parser.flags.hasUpgrade with
      | false => rfl
      | true =>
        obtain hown | hnot := h.upgrade hleft
        · rw [hown]
          rfl
        · exact absurd hnames hnot
    rw [CoroHttpRequest.asksWebsocket, CoroHttpRequest.asksWebsocket, hflag]
    rfl
  · have hnone : ∀ before : HttpParser,
      CoroHttpRequest.asksWebsocket (r.parser before) = false := by
      intro before
      rw [Bool.eq_false_iff]
      intro hasks
      simp only [CoroHttpRequest.asksWebsocket, Bool.and_eq_true, decide_eq_true_eq] at hasks
      exact hnames ⟨hasks.1.2, hasks.2⟩
    rw [hnone, hnone]

theorem asksHandshake_eq (h : RequestForgets server c r) :
    asksHandshake c.request (r.parser c.parser) = asksHandshake {} (r.parser {}) := by
  rw [asksHandshake, asksHandshake, asksWebsocket_eq h, r.streams_eq, r.streams_eq]
  rfl

theorem alike_readRequest (h : RequestForgets server c r) (hidle : Idle c) :
    Alike (readRequest c.request (r.parser c.parser) r.body).2
      (readRequest {} (r.parser {}) r.body).2
      (readRequest c.request (r.parser c.parser) r.body).1
      (readRequest {} (r.parser {}) r.body).1 := by
  have hasks := asksWebsocket_eq h
  have hsame : ∀ req req₀ : CoroHttpRequest, req.body = req₀.body →
      req.getContentType (r.parser c.parser) = req₀.getContentType (r.parser {}) →
      Alike (r.parser c.parser) (r.parser {}) req req₀ :=
    fun req req₀ hbody htype => ⟨rfl, rfl, rfl, rfl, rfl, hasks, hbody, htype⟩
  -- the body is set on both sides
  have hset : ∀ req req₀ : CoroHttpRequest, Alike (r.parser c.parser) (r.parser {}) req req₀ →
      Alike (if r.body = [] then (req, r.parser c.parser) else req.setBody (r.parser c.parser) r.body).2
        (if r.body = [] then (req₀, r.parser {}) else req₀.setBody (r.parser {}) r.body).2
        (if r.body = [] then (req, r.parser c.parser) else req.setBody (r.parser c.parser) r.body).1
        (if r.body = [] then (req₀, r.parser {}) else req₀.setBody (r.parser {}) r.body).1 := by
    intro req req₀ halike
    split_ifs with hbody
    · exact halike
    · have htype : ({ req with body := r.body } : CoroHttpRequest).getContentType (r.parser c.parser) =
          ({ req₀ with body := r.body } : CoroHttpRequest).getContentType (r.parser {}) :=
        halike.contentType
      simp only [CoroHttpRequest.setBody, htype]
      split_ifs
      · exact ⟨rfl, rfl, rfl, rfl, rfl, hasks, rfl, halike.contentType⟩
      · exact ⟨rfl, rfl, rfl, rfl, rfl, hasks, rfl, halike.contentType⟩
  rw [readRequest, readRequest, asksHandshake_eq h]
  apply hset
  by_cases hhandshake : asksHandshake {} (r.parser {}) = true
  · rw [if_pos hhandshake, if_pos hhandshake]
    exact hsame _ _ hidle.body (CoroHttpRequest.getContentType_congr rfl rfl)
  · rw [if_neg hhandshake, if_neg hhandshake]
    apply hsame _ _ hidle.body
    cases hleft : c.request.isWebsocket with
    | false => exact CoroHttpRequest.getContentType_congr rfl hleft
    | true =>
      obtain hnames | hasked := h.websocket hleft
      · calc
          c.request.getContentType (r.parser c.parser) = c.request.getContentType (r.parser {}) :=
            CoroHttpRequest.getContentType_congr rfl rfl
          _ = ({} : CoroHttpRequest).getContentType (r.parser {}) :=
            CoroHttpRequest.getContentType_of_namesType hnames
      · exact absurd hasked hhandshake

theorem readRequest_route (request : CoroHttpRequest) (parser : HttpParser) (body : Bytes) :
    (readRequest request parser body).1.params = request.params ∧
      (readRequest request parser body).1.regexMatches = request.regexMatches := by
  simp only [readRequest, CoroHttpRequest.setBody]
  split_ifs <;> exact ⟨rfl, rfl⟩

/-- The handlers see what they see on a fresh connection, and make the same calls. -/
theorem dispatched_same (h : RequestForgets server c r) (hidle : Idle c) :
    (server.dispatched c.request (r.parser c.parser) r.body).seen =
        (server.dispatched {} (r.parser {}) r.body).seen ∧
      (server.dispatched c.request (r.parser c.parser) r.body).calls =
        (server.dispatched {} (r.parser {}) r.body).calls := by
  obtain ⟨hparams, hmatches⟩ := readRequest_route c.request (r.parser c.parser) r.body
  obtain ⟨hparams₀, hmatches₀⟩ := readRequest_route {} (r.parser {}) r.body
  have hroute : RouteForgets server.router (readRequest {} (r.parser {}) r.body).2
      (readRequest c.request (r.parser c.parser) r.body).1 := by
    constructor
    · intro hexact
      exact hparams.trans (h.route.params hexact)
    · rw [hmatches]
      exact h.route.regexMatches
  have hsame := dispatch_same (alike_readRequest h hidle) hparams₀ hmatches₀ hroute
  exact ⟨hsame.seen, hsame.calls⟩

/-- The text of the response is that of a fresh connection. -/
theorem toBuffers_of_forgets (h : ResponseForgets server c r) (hidle : Idle c) :
    (c.response.applyAll (r.calls server)).toBuffers server.clock =
      (({} : CoroHttpResponse).applyAll (r.calls server)).toBuffers server.clock := by
  apply (hidle.response.applyAll _).toBuffers_eq
  · exact CoroHttpResponse.respHeaderSpan_applyAll h.span
  · exact CoroHttpResponse.contentType_applyAll h.contentType
  · obtain hview | hview | hhidden := h.view
    · exact .inl (CoroHttpResponse.contentView_applyAll (.inl hview))
    · exact .inl (CoroHttpResponse.contentView_applyAll (.inr hview))
    · exact .inr hhidden

end Forgets

/-! ### A request on an idle connection -/

/-- The answers to a request. -/
def RequestText.answers (r : RequestText) (server : HttpServer) (c : CoroHttpConnection) :
    List Answer :=
  if r.Refused server then
    [⟨[], (c.response.setStatusAndContent .badRequest
      (ascii "invalid http content length")).toBuffers server.clock⟩]
  else server.answersTo c.request (r.parser c.parser) c.response r.body

section Receive

variable {server : HttpServer} {c : CoroHttpConnection}

open CoroHttpConnection

/-- A request on an idle connection is answered, and leaves the connection idle or closed. -/
theorem receive_of_idle (hidle : Idle c) (hopen : c.closed = false) (a : Arrival)
    (hframed : ¬ a.request.Refused server → a.request.Framed) :
    (c.receive server a.segs).answers = c.answers ++ a.request.answers server c ∧
      (c.receive server a.segs).closed =
        (decide (a.request.Refused server) || (a.request.parser c.parser).flags.hasClose) ∧
      ((c.receive server a.segs).closed = false → Idle (c.receive server a.segs)) := by
  have hin : ({ c with input := c.input ++ a.segs } : CoroHttpConnection).headBuf ++
      ({ c with input := c.input ++ a.segs } : CoroHttpConnection).input.flatten =
        a.request.head ++ a.request.body := by
    change c.headBuf ++ (c.input ++ a.segs).flatten = a.request.text
    rw [hidle.headBuf, List.nil_append, List.flatten_append, hidle.input, List.nil_append, a.cut]
  obtain ⟨left, input, hleft, hround⟩ := round_of_request server
    (show ({ c with input := c.input ++ a.segs } : CoroHttpConnection).closed =
      false from hopen) hin
  -- the loop goes one round, and then waits or is at its end
  have hone : ∀ c', ({ c with input := c.input ++ a.segs } : CoroHttpConnection).round server =
      some c' → c'.round server = none → c.receive server a.segs = c' := by
    intro c' hc' hnone
    have hpos : ∃ n, ({ c with input := c.input ++ a.segs } : CoroHttpConnection).pending = n + 1 := by
      have hlen := List.length_pos_iff.mpr a.request.head_ne_nil
      rw [pending, hin, List.length_append]
      exact ⟨a.request.head.length + a.request.body.length - 1, by omega⟩
    obtain ⟨n, hn⟩ := hpos
    rw [receive, start, hn, rounds, hc']
    exact rounds_of_none server hnone
  by_cases hrefused : a.request.Refused server
  · rw [afterHead, if_pos hrefused] at hround
    rw [hone _ hround (round_of_closed server rfl), RequestText.answers, if_pos hrefused,
      decide_eq_true hrefused]
    exact ⟨rfl, rfl, by rintro ⟨⟩⟩
  · obtain ⟨input', hread, hinput'⟩ := a.request.readBody_of_framed (hframed hrefused) hleft
    rw [afterHead, if_neg hrefused, hread, Option.map_some] at hround
    dsimp only at hround
    obtain ⟨response, hhandle⟩ := @handle_of_headBuf server
      { c with parser := a.request.parser c.parser, headBuf := [], input := input' } a.request.body
      rfl hidle.response.delay
    rw [hhandle] at hround
    dsimp only at hround
    have hwaits : ∀ c' : CoroHttpConnection, c'.headBuf = [] → c'.input = input' →
        c'.round server = none := by
      intro c' hbuf hinput
      apply round_eq_none
      rw [hbuf, hinput, hinput']
      rfl
    rw [hone _ hround (hwaits _ rfl rfl), RequestText.answers, if_neg hrefused,
      decide_eq_false hrefused, Bool.false_or]
    refine ⟨rfl, rfl, ?_⟩
    intro hopen'
    refine ⟨rfl, hinput', ?_, rfl, CoroHttpResponse.sameReset_clear⟩
    exact (congrArg ConnectionFlags.hasClose (readRequest_flags _ _ _)).trans hopen'

/-- The answer to a request that notices nothing is that of a fresh connection. -/
theorem independent_of_idle (hidle : Idle c) (hopen : c.closed = false) (a : Arrival)
    (h : Unaffected server c a.request) : Independent server c a := by
  obtain ⟨hanswers, hclosed, -⟩ := receive_of_idle hidle hopen a h.framed
  obtain ⟨hanswers₀, hclosed₀, -⟩ := receive_of_idle idle_fresh rfl a h.framed
  have htext := toBuffers_of_forgets h.response hidle
  rw [Independent, hanswers, hclosed, hanswers₀, hclosed₀]
  constructor
  · have hsame : a.request.answers server c = a.request.answers server {} := by
      by_cases hrefused : a.request.Refused server
      · rw [RequestText.calls, if_pos hrefused] at htext
        rw [RequestText.answers, RequestText.answers, if_pos hrefused, if_pos hrefused]
        exact congrArg (fun text => [(⟨[], text⟩ : Answer)]) htext
      · have hforgets := h.request hrefused
        obtain ⟨hseen, hcalls⟩ := dispatched_same hforgets hidle
        rw [RequestText.calls, if_neg hrefused] at htext
        have hresponse : server.responseCalls c.request (a.request.parser c.parser) a.request.body =
            server.responseCalls {} (a.request.parser {}) a.request.body := by
          rw [HttpServer.responseCalls, HttpServer.responseCalls, asksHandshake_eq hforgets, hcalls]
          rfl
        rw [RequestText.answers, RequestText.answers, if_neg hrefused, if_neg hrefused,
          HttpServer.answersTo, HttpServer.answersTo, hresponse, asksHandshake_eq hforgets, hseen,
          htext]
    rw [hsame, List.nil_append]
  · have hflag : (a.request.parser c.parser).flags.hasClose =
        (a.request.parser {}).flags.hasClose := by
      change (c.parser.flags.hasClose || a.request.flags.hasClose) =
        (false || a.request.flags.hasClose)
      rw [hidle.hasClose]
    rw [hflag]

/-- Nothing is read on a closed connection. -/
theorem receive_of_closed (hclosed : c.closed = true) (segs : List Bytes) :
    (c.receive server segs).closed = true := by
  have hnone : ({ c with input := c.input ++ segs } : CoroHttpConnection).round server = none :=
    round_of_closed server hclosed
  rw [receive, start, rounds_of_none server hnone]
  exact hclosed

end Receive

/-! ### Runs -/

section Runs

variable {server : HttpServer}

theorem serveAll_concat (arrivals : List Arrival) (a : Arrival) :
    serveAll server (arrivals ++ [a]) = (serveAll server arrivals).receive server a.segs := by
  rw [serveAll, List.foldl_append]
  rfl

/-- Between two requests the connection is idle, as long as it is open. -/
theorem idle_serveAll {arrivals : List Arrival}
    (h : ∀ earlier a later, arrivals = earlier ++ a :: later →
      (serveAll server earlier).closed = false →
      Unaffected server (serveAll server earlier) a.request)
    (hopen : (serveAll server arrivals).closed = false) : Idle (serveAll server arrivals) := by
  induction arrivals using List.reverseRecOn with
  | nil => exact idle_fresh
  | append_singleton arrivals a ih =>
    rw [serveAll_concat] at hopen ⊢
    have hopen' : (serveAll server arrivals).closed = false := by
      by_contra hclosed
      rw [Bool.not_eq_false] at hclosed
      rw [receive_of_closed hclosed] at hopen
      cases hopen
    have hidle : Idle (serveAll server arrivals) := by
      apply ih _ hopen'
      intro earlier b later hsplit
      apply h earlier b (later ++ [a])
      rw [hsplit, List.append_assoc, List.cons_append]
    exact (receive_of_idle hidle hopen' a (h arrivals a [] rfl hopen').framed).2.2 hopen

/-- Where no request of a run notices what is left of those before it, every answer is that of a
fresh connection. -/
theorem independent_of_unaffected (server : HttpServer) (arrivals : List Arrival)
    (h : ∀ earlier a later, arrivals = earlier ++ a :: later →
      (serveAll server earlier).closed = false →
      Unaffected server (serveAll server earlier) a.request) :
    ∀ earlier a later, arrivals = earlier ++ a :: later →
      (serveAll server earlier).closed = false →
      Independent server (serveAll server earlier) a := by
  intro earlier a later hsplit hopen
  have hidle : Idle (serveAll server earlier) := by
    apply idle_serveAll _ hopen
    intro earlier' b later' hsplit'
    apply h earlier' b (later' ++ a :: later)
    rw [hsplit, hsplit', List.append_assoc, List.cons_append]
  exact independent_of_idle hidle hopen a (h earlier a later hsplit hopen)

end Runs

/-! ### Two pages -/

/-- A server with a page whose handler makes the given calls, and a handler for all other pages. -/
def pageServer (calls : List ResponseCall) : HttpServer where
  router :=
    { mapHandles := fun key =>
        if key = ascii "GET /a" then some fun _ => ⟨calls, false⟩ else none
      coroHandles := fun _ => none
      routerTree := .ofPath []
      coroRouterTree := .ofPath []
      coroRegexHandles := []
      regexHandles := []
      defaultHandler := some fun _ => ⟨[.setStatusAndContent .ok (ascii "b")], false⟩ }
  clock := ⟨ascii "now", fun _ => ascii "later"⟩
  acceptKey := id

/-- A request for the first page. -/
def firstPage : Arrival where
  request :=
    { head := ascii "GET /a HTTP/1.1\r\n\r\n"
      body := []
      parsed := ⟨ascii "GET", ascii "/a", false, 1, []⟩
      flags := {}
      head_end := by decide +kernel
      parses := by decide +kernel }
  segs := [ascii "GET /a HTTP/1.1\r\n\r\n"]
  cut := rfl

/-- A request for the second page. -/
def secondPage : Arrival where
  request :=
    { head := ascii "GET /b HTTP/1.1\r\n\r\n"
      body := []
      parsed := ⟨ascii "GET", ascii "/b", false, 1, []⟩
      flags := {}
      head_end := by decide +kernel
      parses := by decide +kernel }
  segs := [ascii "GET /b HTTP/1.1\r\n\r\n"]
  cut := rfl

/-- The first page sets its content type, and the second page is sent with it. -/
theorem not_independent :
    ¬ Independent (pageServer [.setStatusAndContent .ok (ascii "a"), .setContentType 34])
      (serveAll (pageServer [.setStatusAndContent .ok (ascii "a"), .setContentType 34]) [firstPage])
      secondPage := by
  intro h
  have htexts := congrArg (List.map Answer.text) h.1
  exact absurd htexts (by decide +kernel)

/-- A first page that sets a content only is not noticed by the second one. -/
theorem independent_of_unaffected_pages :
    Independent (pageServer [.setStatusAndContent .ok (ascii "a")])
      (serveAll (pageServer [.setStatusAndContent .ok (ascii "a")]) [firstPage]) secondPage := by
  apply independent_of_unaffected _ [firstPage, secondPage] _ [firstPage] secondPage [] rfl
  · decide +kernel
  · intro earlier a later hsplit _
    cases earlier with
    | nil =>
      cases hsplit
      refine ⟨fun _ => by decide +kernel, fun _ => ⟨nofun, nofun, fun _ => rfl, .inl rfl⟩, ?_⟩
      exact ⟨.inl rfl, .inl rfl, .inl rfl⟩
    | cons b earlier =>
      cases earlier with
      | nil =>
        cases hsplit
        refine ⟨fun _ => by decide +kernel, fun _ => ⟨?_, ?_, ?_, .inl (by decide +kernel)⟩, ?_⟩
        · exact fun h => absurd h (by decide +kernel)
        · exact fun h => absurd h (by decide +kernel)
        · exact fun h => absurd h (by decide +kernel)
        · exact ⟨.inl (by decide +kernel), .inl (by decide +kernel), .inl (by decide +kernel)⟩
      | cons b' earlier =>
        have hlen := congrArg List.length hsplit
        simp only [List.length_cons, List.length_append, List.length_nil] at hlen
        omega

end Yalantinglibs.Cinatra
