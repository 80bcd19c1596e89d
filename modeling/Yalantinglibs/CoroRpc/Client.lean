import Mathlib.Data.List.Basic
import Mathlib.Logic.Function.Basic
import Yalantinglibs.CoroRpc.Protocol
import Yalantinglibs.Data.TransitionSystem

/-!
# A connection of the client

`send_request` and `recv` of `coro_rpc_client.hpp` on one connection. Any number of calls and of
`recv` loops are under way, on any threads. Each takes one step after the other, and a step is one
atomic operation, one section under the mutex, one read or one write.

## Main definitions

* `Handler`, `Completion` — `handler_t` and what its promise is completed with
* `Call`, `Loop` — where a `send_request` and a `recv` stand
* `State` — a connection
* `Action`, `step` — what can happen next
* `client` — the transition system

Requests are numbered in the order in which they take their id. The id is the number modulo
`2 ^ 32`, so that the table has a number for an entry.

Of the server it is assumed that it answers a request that was written, and once. Of the socket,
that a write that failed has not brought the whole request to the server, and that nothing is read
behind a read that failed.
-/

set_option autoImplicit false

namespace Yalantinglibs.CoroRpc.Client

open StructPack

/-! ### States -/

/-- The id that `request_id_++` gives to a request. -/
def requestId (request : ℕ) : UInt32 := UInt32.ofNat request

/-- The error a promise is completed with. -/
inductive ErrorCode
  | success | io | timedOut
  deriving DecidableEq

/-- `async_rpc_raw_result`. -/
inductive Completion
  | response (buffer : Bytes) (errCode : UInt8) (attachment : Bytes)
  | localError (ec : ErrorCode)
  deriving DecidableEq

/-- `handler_t`. -/
structure Handler where
  /-- `response_attachment_buffer_`: what the view shows -/
  buffer : Bytes
  completed : Bool

/-- What a `send_request` does next. -/
inductive Call
  /-- it has not begun -/
  | none
  /-- `try_emplace`, under the mutex -/
  | emplace
  /-- `close`, for an id that is taken -/
  | conflict
  /-- it looks at `has_closed_` -/
  | check
  | write
  /-- `close`, as the write has failed -/
  | close
  /-- it takes its handler back, under the mutex -/
  | erase
  /-- the exchange of `recv_running_` -/
  | exchange
  /-- it has returned, and its caller waits for the promise -/
  | sent
  /-- it has returned an error -/
  | failed
  deriving DecidableEq

/-- What a `recv` does next. -/
inductive Loop
  | readHead
  /-- it looks the handler up, under the mutex -/
  | lookup (header : RespHeader)
  | readBody (header : RespHeader) (request : ℕ)
  /-- it calls the handler -/
  | notify (header : RespHeader) (request : ℕ) (buffer : Bytes)
  /-- it erases the handler, and looks whether there is another, under the mutex -/
  | erase (header : RespHeader)
  /-- it stores to `recv_running_`, as there is none -/
  | store
  /-- it looks again, under the mutex -/
  | recheck
  /-- the exchange of `recv_running_`, as there is one now -/
  | compareExchange
  /-- it stores to `recv_running_`, behind the loop -/
  | failed (ec : ErrorCode)
  | closeSocketAsync (ec : ErrorCode)
  /-- it takes all handlers, under the mutex -/
  | takeHandlers (ec : ErrorCode)
  /-- it calls these handlers -/
  | localError (requests : List ℕ) (ec : ErrorCode)
  deriving DecidableEq

/-- A connection. -/
structure State where
  /-- the number of requests that took an id -/
  requests : ℕ
  calls : ℕ → Call
  handlers : ℕ → Handler
  /-- `response_handler_table_`: the requests whose handlers are there -/
  table : List ℕ
  recvRunning : Bool
  hasClosed : Bool
  isTimeout : Bool
  loops : List Loop
  /-- what the server has sent and was not read -/
  inbound : Bytes
  /-- a read has failed -/
  readFailed : Bool
  /-- what the server has answered -/
  answers : ℕ → Option Response
  /-- the promises that were completed -/
  completions : List (ℕ × Completion)

/-- A new connection. -/
def initial : State where
  requests := 0
  calls _ := .none
  handlers _ := ⟨[], false⟩
  table := []
  recvRunning := false
  hasClosed := false
  isTimeout := false
  loops := []
  inbound := []
  readFailed := false
  answers _ := none
  completions := []

namespace State

def setCall (s : State) (n : ℕ) (c : Call) : State :=
  { s with calls := Function.update s.calls n c }

/-- A `recv` goes on. -/
def setLoop (s : State) (l l' : Loop) : State := { s with loops := l' :: s.loops.erase l }

/-- A `recv` returns. -/
def dropLoop (s : State) (l : Loop) : State := { s with loops := s.loops.erase l }

/-- `response_handler_table_.erase`. -/
def eraseHandler (s : State) (id : UInt32) : State :=
  { s with table := s.table.filter fun n => requestId n ≠ id }

/-- `close_socket_async`. Reads and writes may fail behind it, as they may before. -/
def closeSocketAsync (s : State) : State := { s with hasClosed := true }

/-- A handler is called: it completes its promise, unless it has done so. -/
def complete (s : State) (n : ℕ) (c : Completion) : State :=
  if (s.handlers n).completed then s
  else
    { s with
      handlers := Function.update s.handlers n { s.handlers n with completed := true }
      completions := s.completions ++ [(n, c)] }

end State

/-! ### Steps -/

/-- How a write ends; nothing is written of a message that is too large. -/
inductive WriteResult
  | ok | failed | tooLarge
  deriving DecidableEq

/-- What can happen. -/
inductive Action
  /-- a `send_request` begins, with the attachment buffer of its caller -/
  | sendRequest (respAttachmentBuf : Bytes)
  /-- a `send_request` goes on -/
  | call (n : ℕ) (result : WriteResult)
  /-- a `recv` goes on; a read may fail -/
  | recv (l : Loop) (ok : Bool)
  /-- the server answers a request -/
  | answer (n : ℕ) (errCode : UInt8) (body attachment : Bytes)
  /-- a timer has set `is_timeout_` -/
  | timeout
  /-- a timer or a user closes the connection -/
  | close

section Steps

variable (s : State)

def sendRequest (respAttachmentBuf : Bytes) : State :=
  { s.setCall s.requests .emplace with
    requests := s.requests + 1
    handlers := Function.update s.handlers s.requests ⟨respAttachmentBuf, false⟩ }

/-- The next step of a `send_request`. -/
def callStep (n : ℕ) (result : WriteResult) : Option State :=
  match s.calls n with
  | .emplace =>
    if ∃ m ∈ s.table, requestId m = requestId n then some (s.setCall n .conflict)
    else some { s.setCall n .check with table := n :: s.table }
  | .conflict => some (s.closeSocketAsync.setCall n .failed)
  | .check => some (s.setCall n (if s.hasClosed then .erase else .write))
  | .write =>
    match result with
    | .ok => some (s.setCall n .exchange)
    | .failed => some (s.setCall n .close)
    | .tooLarge => some (s.setCall n .erase)
  | .close => some (s.closeSocketAsync.setCall n .erase)
  | .erase => some ((s.eraseHandler (requestId n)).setCall n .failed)
  | .exchange =>
    if s.recvRunning then some (s.setCall n .sent)
    else some { s.setCall n .sent with recvRunning := true, loops := .readHead :: s.loops }
  | .none | .sent | .failed => none

/-- What the view of a handler shows when the attachment was read. -/
def readAttachment (buffer : Bytes) (attachLength : ℕ) (attachment : Bytes) : Bytes :=
  if attachLength = 0 then buffer
  else
    let buffer :=
      if buffer.length < attachLength then List.replicate attachLength 0
      else if attachLength < buffer.length then buffer.take attachLength
      else buffer
    attachment ++ buffer.drop attachment.length

/-- The next step of a `recv`. -/
def recvStep (l : Loop) (ok : Bool) : Option State :=
  match l with
  | .readHead =>
    if ok then
      if s.readFailed ∨ s.inbound.length < RESP_HEAD_LEN then none
      else
        some { s.setLoop l (.lookup (deserializeHeader (s.inbound.take RESP_HEAD_LEN))) with
          inbound := s.inbound.drop RESP_HEAD_LEN }
    else some { s.setLoop l (.failed .io) with readFailed := true }
  | .lookup header =>
    match s.table.find? fun n => requestId n = header.seqNum with
    | some request => some (s.setLoop l (.readBody header request))
    -- `ret` has no error then
    | none => some (s.setLoop l (.failed .success))
  | .readBody header request =>
    let bodyLen := header.length.toNat
    let attachLength := header.attachLength.toNat
    if ok then
      if s.readFailed ∨ s.inbound.length < bodyLen + attachLength then none
      else
        let h := s.handlers request
        some { s.setLoop l (.notify header request (s.inbound.take bodyLen)) with
          inbound := s.inbound.drop (bodyLen + attachLength)
          handlers := Function.update s.handlers request { h with
            buffer := readAttachment h.buffer attachLength
              ((s.inbound.drop bodyLen).take attachLength) } }
    else some { s.setLoop l (.failed .io) with readFailed := true }
  | .notify header request buffer =>
    some ((s.setLoop l (.erase header)).complete request
      (.response buffer header.errCode (s.handlers request).buffer))
  | .erase header =>
    let s := s.eraseHandler header.seqNum
    some (s.setLoop l (if s.table = [] then .store else .readHead))
  | .store => some { s.setLoop l .recheck with recvRunning := false }
  | .recheck => some (if s.table = [] then s.dropLoop l else s.setLoop l .compareExchange)
  | .compareExchange =>
    if s.recvRunning then some (s.dropLoop l)
    else some { s.setLoop l .readHead with recvRunning := true }
  | .failed ec => some { s.setLoop l (.closeSocketAsync ec) with recvRunning := false }
  | .closeSocketAsync ec => some (s.closeSocketAsync.setLoop l (.takeHandlers ec))
  | .takeHandlers ec =>
    let ec := if s.isTimeout then .timedOut else ec
    some { s.setLoop l (.localError s.table ec) with table := [] }
  | .localError [] _ => some (s.dropLoop l)
  | .localError (n :: requests) ec =>
    some ((s.setLoop l (.localError requests ec)).complete n (.localError ec))

/-- The request was written. -/
def Call.Written : Call → Prop
  | .exchange | .sent => True
  | _ => False

instance : DecidablePred Call.Written := fun c => by
  cases c <;> unfold Call.Written <;> infer_instance

/-- A response to a request. -/
def response (n : ℕ) (errCode : UInt8) (body attachment : Bytes) : Response where
  header := ⟨magicNumber, VERSION_NUMBER, errCode, 0, requestId n, UInt32.ofNat body.length,
    UInt32.ofNat attachment.length⟩
  body := body
  attachment := attachment

/-- A response on the wire. -/
def wire (r : Response) : Bytes := serializeHeader r.header ++ (r.body ++ r.attachment)

/-- The server answers a request; the lengths fit the header. -/
def answer (n : ℕ) (errCode : UInt8) (body attachment : Bytes) : Option State :=
  if (s.calls n).Written ∧ s.answers n = none ∧ body.length ≤ UINT32_MAX ∧
      attachment.length ≤ UINT32_MAX then
    some { s with
      answers := Function.update s.answers n (some (response n errCode body attachment))
      inbound := s.inbound ++ wire (response n errCode body attachment) }
  else none

/-- The connection takes an action. -/
def step : Action → Option State
  | .sendRequest respAttachmentBuf => some (sendRequest s respAttachmentBuf)
  | .call n result => callStep s n result
  | .recv l ok => if l ∈ s.loops then recvStep s l ok else none
  | .answer n errCode body attachment => answer s n errCode body attachment
  | .timeout => some { s with isTimeout := true }
  | .close => some s.closeSocketAsync

end Steps

/-- A connection of the client. -/
def client : TransitionSystem State Action := ⟨initial, step⟩

end Yalantinglibs.CoroRpc.Client
