import Mathlib.Logic.Function.Basic
import Yalantinglibs.CoroRpc.Framing
import Yalantinglibs.Data.TransitionSystem

/-!
# A connection of the server

The read loop `start_impl` of `coro_connection.hpp` with the handlers it starts, the contexts of
`context.hpp` through which handlers answer, and the write queue, while the connection is open.

The read loop has one `context_info` and reuses it for the next request, unless
`is_rpc_return_by_callback_` says that a handler has taken it. All code of the connection runs on
one executor; handlers may answer from elsewhere, and a response is a task of the executor then.

## Main definitions

* `ContextInfo`, `Handler`, `Frame` — contexts, handlers at work, responses
* `State` — a connection
* `Action`, `step` — what can happen next
* `server` — the transition system

Requests are numbered in the order they are accepted. Handlers and frames carry the number of their
request, and a frame carries the answer as the handler gave it; nothing in the model reads these.
-/

set_option autoImplicit false

namespace Yalantinglibs.CoroRpc.Server

open StructPack

/-! ### States -/

/-- `context_status`. -/
inductive ContextStatus
  | init | startResponse | finishResponse
  deriving DecidableEq, Repr

/-- `context_info_t`: what a response is made from. -/
structure ContextInfo where
  /-- `req_head_.seq_num` -/
  seqNum : UInt32
  status : ContextStatus
  /-- `resp_attachment_`; `none` when it was moved from -/
  respAttachment : Option RespAttachment

/-- How far a handler is. -/
inductive Stage
  /-- it is called by the read loop, and has constructed no context -/
  | plain
  /-- it has a context; `captured` once the context was handed on -/
  | callback (captured : Bool)
  /-- a coroutine -/
  | coroutine
  /-- a coroutine that is over, with its result in a task of the executor -/
  | finished (code : UInt16) (buf : Bytes)
  deriving DecidableEq

/-- A handler at work, until it is over and has let go of its context. -/
structure Handler where
  request : ℕ
  context : ℕ
  /-- what it has set as its attachment -/
  attachment : RespAttachment
  /-- it has answered through its context -/
  answered : Bool
  stage : Stage
  deriving DecidableEq

/-- A response. -/
structure Frame where
  request : ℕ
  answer : Answer
  entry : QueueEntry

/-- Where the read loop stands. -/
inductive Loop
  /-- it waits for a header -/
  | readHead
  /-- it waits for the payload of the request with this `seq_num` -/
  | readPayload (seqNum : UInt32)
  /-- it is in a call of a handler, for this request -/
  | running (request : ℕ)
  /-- an exception has ended it -/
  | stopped
  deriving DecidableEq

/-- A connection. -/
structure State where
  /-- the contexts, by address -/
  contexts : ℕ → ContextInfo
  /-- the next free address -/
  fresh : ℕ
  /-- the local variable `context_info` of the read loop -/
  contextInfo : ℕ
  isRpcReturnByCallback : Bool
  loop : Loop
  handlers : List Handler
  /-- the calls of `response` that were dispatched to the executor -/
  tasks : List Frame
  rpcProcessingCnt : UInt64
  writeQueue : List Frame
  /-- the number of loops of `send_data` -/
  senders : ℕ
  /-- what was written -/
  written : List Frame
  /-- the `seq_num` of each request that was accepted -/
  accepted : List UInt32
  /-- what was put into the write queue -/
  enqueued : List Frame

/-- A context as it is made. -/
def newContext (seqNum : UInt32) : ContextInfo := ⟨seqNum, .init, some .empty⟩

/-- A new connection. -/
def initial : State where
  contexts _ := newContext 0
  fresh := 1
  contextInfo := 0
  isRpcReturnByCallback := false
  loop := .readHead
  handlers := []
  tasks := []
  rpcProcessingCnt := 0
  writeQueue := []
  senders := 0
  written := []
  accepted := []
  enqueued := []

namespace State

/-- The handler that works with a context. -/
def handlerAt (s : State) (k : ℕ) : Option Handler := s.handlers.find? fun h => h.context = k

/-- A handler goes on. -/
def setHandler (s : State) (h h' : Handler) : State :=
  { s with handlers := h' :: s.handlers.erase h }

/-- A handler lets go of its context. -/
def dropHandler (s : State) (h : Handler) : State := { s with handlers := s.handlers.erase h }

def setContext (s : State) (k : ℕ) (c : ContextInfo) : State :=
  { s with contexts := Function.update s.contexts k c }

/-- `response`: it starts a loop of `send_data` if the queue was empty. -/
def response (s : State) (f : Frame) : State :=
  { s with
    writeQueue := s.writeQueue ++ [f]
    enqueued := s.enqueued ++ [f]
    rpcProcessingCnt := s.rpcProcessingCnt - 1
    senders := if s.writeQueue = [] then s.senders + 1 else s.senders }

/-- The response that `direct_response_msg` makes from a context. There is none if the attachment
was moved from: the call of an empty function throws. -/
def directFrame (ndebug : Bool) (s : State) (request k : ℕ) (attachment : RespAttachment)
    (code : UInt16) (buf : Bytes) : Option Frame :=
  (s.contexts k).respAttachment.map fun a =>
    ⟨request, .directResponseMsg code buf attachment,
      queueEntry ndebug (s.contexts k).seqNum (.directResponseMsg code buf a)⟩

end State

/-! ### Steps -/

/-- What a handler answers through its context. -/
inductive Reply
  | msg (body : Bytes)
  | error (ec : UInt16) (errorMsg : Bytes)
  deriving DecidableEq

/-- What can happen. -/
inductive Action
  /-- a header is read -/
  | readHead (seqNum : UInt32)
  /-- the payload is read, and the handler is called: one of `handlers_`, or a coroutine (or
  nothing that is registered, for which a coroutine answers) -/
  | readPayload (plain : Bool)
  /-- a context is made for the handler -/
  | construct
  /-- a handler sets its attachment -/
  | setAttachment (k : ℕ) (attachment : RespAttachment)
  /-- the handler in the read loop hands its context on -/
  | capture
  /-- a handler answers through its context, on the executor or from elsewhere -/
  | respond (k : ℕ) (reply : Reply) (onExecutor : Bool)
  /-- the handler in the read loop returns or throws: what `route` makes of it -/
  | finish (code : UInt16) (buf : Bytes)
  /-- a coroutine returns or throws: what `route_coro` makes of it -/
  | finishCoroutine (k : ℕ) (code : UInt16) (buf : Bytes)
  /-- the task of a coroutine runs -/
  | runFinished (k : ℕ)
  /-- the task of a response runs -/
  | runTask (i : ℕ)
  /-- a handler that has answered lets go of its context -/
  | release (k : ℕ)
  /-- `send_data` has written the front of the queue -/
  | writeFront

section Steps

variable (ndebug : Bool) (s : State)

/-- A header is read: the context for it is reused, or a new one. -/
def readHead (seqNum : UInt32) : Option State :=
  match s.loop with
  | .readHead =>
    if s.isRpcReturnByCallback then
      some { s.setContext s.fresh (newContext seqNum) with
        contextInfo := s.fresh
        fresh := s.fresh + 1
        isRpcReturnByCallback := false
        loop := .readPayload seqNum }
    else
      some { s.setContext s.contextInfo { s.contexts s.contextInfo with seqNum } with
        loop := .readPayload seqNum }
  | _ => none

/-- A request is accepted, and its handler is called. -/
def readPayload (plain : Bool) : Option State :=
  match s.loop with
  | .readPayload seqNum =>
    let request := s.accepted.length
    let accepted := { s with
      accepted := s.accepted ++ [seqNum]
      rpcProcessingCnt := s.rpcProcessingCnt + 1 }
    let h : Handler := ⟨request, s.contextInfo, .empty, false, .plain⟩
    if plain then some { accepted with handlers := h :: s.handlers, loop := .running request }
    else
      some { accepted with
        handlers := { h with stage := .coroutine } :: s.handlers
        isRpcReturnByCallback := true
        loop := .readHead }
  | _ => none

/-- The constructor of `context_base`. -/
def construct : Option State :=
  match s.loop, s.handlerAt s.contextInfo with
  | .running _, some h =>
    if h.stage = .plain then
      some { s.setHandler h { h with stage := .callback false } with isRpcReturnByCallback := true }
    else none
  | _, _ => none

/-- `set_response_attachment`. -/
def setAttachment (k : ℕ) (attachment : RespAttachment) : Option State :=
  (s.handlerAt k).bind fun h =>
    match h.stage with
    | .finished _ _ => none
    | _ =>
      -- behind an answer it goes nowhere
      some ((s.setHandler h { h with attachment }).setContext k
        { s.contexts k with respAttachment := some attachment })

def capture : Option State :=
  match s.loop, s.handlerAt s.contextInfo with
  | .running _, some h =>
    if h.stage = .callback false then some (s.setHandler h { h with stage := .callback true })
    else none
  | _, _ => none

/-- `response_msg` and `response_error` of a context: the answer that is made, and the context
then. -/
def makeReply (h : Handler) (c : ContextInfo) : Reply → Option (Frame × ContextInfo)
  | .msg body =>
    c.respAttachment.map fun a =>
      (⟨h.request, .responseMsg body h.attachment,
          queueEntry ndebug c.seqNum (.responseMsg body a)⟩,
        { c with status := .finishResponse, respAttachment := none })
  | .error ec errorMsg =>
    some (⟨h.request, .responseError ec errorMsg,
        queueEntry ndebug c.seqNum (.responseError ec errorMsg)⟩,
      { c with status := .startResponse })

/-- A handler answers: `asio::dispatch` runs `response` at once on the executor. -/
def respond (k : ℕ) (reply : Reply) (onExecutor : Bool) : Option State :=
  (s.handlerAt k).bind fun h =>
    match h.stage with
    | .callback _ =>
      -- `check_status`
      if (s.contexts k).status ≠ .init then some s
      else
        (makeReply ndebug h (s.contexts k) reply).map fun p =>
          let s := (s.setHandler h { h with answered := true }).setContext k p.2
          if onExecutor then s.response p.1 else { s with tasks := p.1 :: s.tasks }
    | _ => none

/-- The read loop after `route`. -/
def finish (code : UInt16) (buf : Bytes) : Option State :=
  match s.loop, s.handlerAt s.contextInfo with
  | .running request, some h =>
    let left := if h.stage = .callback true then s else s.dropHandler h
    if s.isRpcReturnByCallback = true ∧ code = 0 then some { left with loop := .readHead }
    else
      match s.directFrame ndebug request s.contextInfo h.attachment code buf with
      | none => some { left with isRpcReturnByCallback := false, loop := .stopped }
      | some f =>
        some ({ left.setContext s.contextInfo
            { s.contexts s.contextInfo with respAttachment := some .empty } with
          isRpcReturnByCallback := false
          loop := .readHead }.response f)
  | _, _ => none

/-- A coroutine is over. -/
def finishCoroutine (k : ℕ) (code : UInt16) (buf : Bytes) : Option State :=
  (s.handlerAt k).bind fun h =>
    if h.stage = .coroutine then some (s.setHandler h { h with stage := .finished code buf })
    else none

/-- The task of a coroutine that is over. -/
def runFinished (k : ℕ) : Option State :=
  (s.handlerAt k).bind fun h =>
    match h.stage with
    | .finished code buf =>
      (s.directFrame ndebug h.request k h.attachment code buf).map (s.dropHandler h).response
    | _ => none

def runTask (i : ℕ) : Option State :=
  s.tasks[i]?.map fun f => ({ s with tasks := s.tasks.eraseIdx i }.response f)

/-- While its handler is running, a context counts as held. -/
def release (k : ℕ) : Option State :=
  (s.handlerAt k).bind fun h =>
    if h.stage = .callback true ∧ (s.contexts k).status ≠ .init ∧
        ¬ (s.loop = .running h.request ∧ k = s.contextInfo) then
      some (s.dropHandler h)
    else none

/-- One round of the loop of `send_data`. -/
def writeFront : Option State :=
  match s.senders, s.writeQueue with
  | n + 1, f :: writeQueue =>
    some { s with
      writeQueue
      written := s.written ++ [f]
      -- the loop ends with the queue
      senders := if writeQueue = [] then n else n + 1 }
  | _, _ => none

/-- The connection takes an action. -/
def step : Action → Option State
  | .readHead seqNum => readHead s seqNum
  | .readPayload plain => readPayload s plain
  | .construct => construct s
  | .setAttachment k attachment => setAttachment s k attachment
  | .capture => capture s
  | .respond k reply onExecutor => respond ndebug s k reply onExecutor
  | .finish code buf => finish ndebug s code buf
  | .finishCoroutine k code buf => finishCoroutine s k code buf
  | .runFinished k => runFinished ndebug s k
  | .runTask i => runTask s i
  | .release k => release s k
  | .writeFront => writeFront s

end Steps

/-- A connection of the server. -/
def server (ndebug : Bool) : TransitionSystem State Action := ⟨initial, step ndebug⟩

end Yalantinglibs.CoroRpc.Server
