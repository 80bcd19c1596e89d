import Yalantinglibs.CoroIo.UrmaPool
import Yalantinglibs.Data.TransitionSystem

/-!
# Who owns the buffers of an URMA pool

The sockets of `coro_io/urma/urma_socket.hpp` that share one pool, and the calls of
`coro_io/urma/urma_io.hpp` that read and write with them. The sockets run on different threads, so
that a step here goes once to the pool at most. Of a message only its length matters.

To move a `urma_buffer_t` is to copy it. `recv_buffer_` therefore refers to the last message also
where its buffer was returned, or is in a view; `recvOwned` says that it is in neither case.

## Main definitions

* `Socket`, `State`, `Event`, `step` — sockets and views of one pool, and what may happen
* `OwnedOnce` — what is to hold of the buffers
* `Orderly` — when it does

## Main results

* `ownedOnce_of_reaches` — it does in runs of orderly steps
-/

set_option autoImplicit false

namespace Yalantinglibs.CoroIo.UrmaOwnership

open Yalantinglibs.Numbering TransitionSystem

/-! ### The model -/

inductive Errc
  | ioError
  | protocolError
  | noBufferSpace
  | connectionReset
  | operationCanceled
  deriving DecidableEq

/-- What a receive comes to, with the length of its message. -/
abbrev Result := Option Errc × ℕ

/-- A call between two messages. -/
inductive Reading
  /-- `async_urma_read`: what is left of the present buffer, and the sizes of those behind it -/
  | buffers (left : ℕ) (rest : List ℕ) (readSome : Bool)
  /-- `async_urma_read_views` -/
  | views (size completed : ℕ)

/-- The call that reads from a socket. -/
inductive Reader
  | idle
  /-- `async_urma_read` comes to its next buffer -/
  | nextBuffer (sizes : List ℕ) (readSome : Bool)
  /-- `async_urma_read_views` begins -/
  | firstView (size : ℕ)
  | loops (call : Reading)
  /-- it is in `recv_callback_` -/
  | waits (call : Reading)
  | resumed (call : Reading) (result : Result)

/-- What else runs on the executor of a socket. -/
inductive Phase
  | idle
  /-- `fill_recv_queue`, in front of the handshake -/
  | opening
  /-- a receive is completed, and `fill_recv_queue` runs -/
  | filling (buffer : ℕ) (result : Result)
  /-- it has run -/
  | filled (buffer : ℕ) (result : Result)
  /-- `fail_pending` behind a failed poll -/
  | failing
  /-- `fail_pending` of `close`, which the destructor may have called -/
  | closing (destroyed : Bool)
  /-- `release_resources` behind that -/
  | releasing
  | released
  deriving DecidableEq

structure Config where
  recvBufferCnt : ℕ
  sendBufferCnt : ℕ
  cqSize : ℕ
  /-- the size of the pool's buffers -/
  bufferSize : ℕ

/-- A socket, with the calls on it. -/
structure Socket where
  recvQueue : List ℕ := []
  recvResult : List (ℕ × Result) := []
  /-- the buffers of `send_callbacks_` -/
  sendCallbacks : List ℕ := []
  recvBuffer : Option ℕ := none
  /-- the buffer in `recv_buffer_` was neither returned nor handed to a view -/
  recvOwned : Bool := false
  /-- the length of `remain_data_` -/
  remain : ℕ := 0
  reader : Reader := .idle
  phase : Phase := .idle
  /-- the buffer that `fill_recv_queue` comes to post -/
  posting : Option ℕ := none
  /-- the buffer that `async_write` copies into -/
  writing : Option ℕ := none
  /-- `remote_jetty_` is there -/
  remoteJetty : Bool := false
  hasClose : Bool := false

/-- What may happen to a socket. Where a buffer is taken from the pool, it is said which shard the
thread prefers. -/
inductive SocketEvent
  /-- `connect` or `accept` comes to `fill_recv_queue` -/
  | connect
  /-- the next round of `fill_recv_queue`, and what posting the receive returns -/
  | fill (start : ℕ)
  | postRecv (status : ℕ)
  /-- the loop of `poll_completion` goes on behind `fill_recv_queue` -/
  | deliver
  | importPeer
  /-- `async_write` takes a buffer, and what posting the send returns -/
  | write (start : ℕ)
  | postSend (status : ℕ)
  | sendDone
  | recvDone (ec : Option Errc) (length : ℕ)
  /-- the completions cannot be polled -/
  | pollError
  /-- `fail_pending` goes on -/
  | failNext
  | close
  | read (sizes : List ℕ) (readSome : Bool)
  | readViews (size : ℕ)
  /-- the call that reads goes on -/
  | readNext
  | destroy
  /-- `release_resources` goes on -/
  | release

structure State where
  pool : BufferPool
  sockets : List Socket := []
  /-- the buffers of detached views -/
  views : List ℕ := []

inductive Event
  | open
  | on (k : ℕ) (event : SocketEvent)
  /-- the last reference to a view goes -/
  | dropView (buffer : ℕ)

namespace Socket

variable (s : Socket)

/-- The call that waits for a message is resumed without one. -/
def resumeRecv (ec : Errc) : Socket :=
  match s.reader with
  | .waits call => { s with reader := .resumed call (some ec, 0) }
  | _ => s

/-- A message becomes the current one, for a call. -/
def receive (call : Reading) (buffer : ℕ) (result : Result) : Socket :=
  { s with recvBuffer := some buffer, recvOwned := true, reader := .resumed call result }

/-- `fill_recv_queue` ends. -/
def endFill : Socket :=
  match s.phase with
  | .opening => { s with phase := .idle }
  | .filling buffer result => { s with phase := .filled buffer result }
  | _ => s

def isFilling : Bool :=
  match s.phase with
  | .opening | .filling _ _ => true
  | _ => false

/-- The destructor runs, or has run. -/
def isDestroyed : Bool :=
  match s.phase with
  | .closing true | .releasing | .released => true
  | _ => false

/-- The length of `remain_data_` is set by `consume` and `set_read_buffer_len`, which release the
buffer if nothing remains. -/
def setRemain (p : BufferPool) (remain : ℕ) : BufferPool × Socket :=
  if remain = 0 then
    (match s.recvBuffer with
      | some buffer => p.returnBuffer buffer
      | none => p, { s with remain, recvOwned := false })
  else (p, { s with remain })

end Socket

/-- A step of a socket: the pool and the socket after it, and the buffers of new views. -/
abbrev Outcome := BufferPool × Socket × List ℕ

/-- `async_receive`. -/
def asyncReceive (p : BufferPool) (s : Socket) (call : Reading) : Outcome :=
  match s.recvResult with
  | (buffer, result) :: rest => (p, { s with recvResult := rest }.receive call buffer result, [])
  | [] =>
    if s.hasClose then (p, { s with reader := .resumed call (some .operationCanceled, 0) }, [])
    else (p, { s with reader := .waits call }, [])

/-- `async_urma_read` and `async_urma_read_views` go on, up to the next access to the pool. -/
def readNext (cfg : Config) (p : BufferPool) (s : Socket) : Option Outcome :=
  match s.reader with
  | .idle | .waits _ => none
  | .nextBuffer [] _ => some (p, { s with reader := .idle }, [])
  | .nextBuffer (size :: rest) readSome =>
    if s.remain = 0 then some (p, { s with reader := .loops (.buffers size rest readSome) }, [])
    else
      -- `consume`
      let count := min size s.remain
      let c := s.setRemain p (s.remain - count)
      some (c.1, { c.2 with reader := .loops (.buffers (size - count) rest readSome) }, [])
  | .firstView size =>
    match s.recvBuffer with
    | some buffer =>
      if s.remain = 0 then some (p, { s with reader := .loops (.views size 0) }, [])
      else
        -- `detach_remain_data_view`
        some (p, { s with
          remain := 0
          recvOwned := false
          reader := .loops (.views size s.remain) }, [buffer])
    | none => some (p, { s with reader := .loops (.views size 0) }, [])
  | .loops (.buffers left rest readSome) =>
    if left = 0 then some (p, { s with reader := .nextBuffer rest readSome }, [])
    else some (asyncReceive p s (.buffers left rest readSome))
  | .loops (.views size completed) =>
    if completed < size then some (asyncReceive p s (.views size completed))
    else some (p, { s with reader := .idle }, [])
  | .resumed _ (some _, _) => some (p, { s with reader := .idle }, [])
  | .resumed (.buffers left rest readSome) (none, length) =>
    let count := min length left
    -- `set_read_buffer_len`
    let c := s.setRemain p (length - count)
    some (c.1, { c.2 with
      reader := if readSome then .idle else .loops (.buffers (left - count) rest readSome) }, [])
  | .resumed (.views size completed) (none, length) =>
    if size < completed + length then some (p, { s with reader := .idle }, [])
    else
      -- `detach_recv_buffer_view`
      match s.recvBuffer with
      | some buffer =>
        if length = 0 then some (p, { s with reader := .loops (.views size completed) }, [])
        else
          some (p, { s with
            recvOwned := false
            reader := .loops (.views size (completed + min length cfg.bufferSize)) }, [buffer])
      | none => some (p, { s with reader := .loops (.views size completed) }, [])

/-- `fail_pending` returns the buffer of the next send, or is at its end. -/
def failNext (p : BufferPool) (s : Socket) : Option Outcome :=
  match s.phase, s.sendCallbacks with
  | .failing, buffer :: rest => some (p.returnBuffer buffer, { s with sendCallbacks := rest }, [])
  | .failing, [] =>
    if s.hasClose then some (p, { s with phase := .idle }, [])
    else
      some (p, { s with hasClose := true, phase := .closing false }.resumeRecv .operationCanceled,
        [])
  | .closing _, buffer :: rest =>
    some (p.returnBuffer buffer, { s with sendCallbacks := rest }, [])
  | .closing destroyed, [] =>
    some (p, { s with phase := if destroyed then .releasing else .idle }, [])
  | _, _ => none

/-- `release_resources` returns the next buffer, or is at its end. -/
def release (p : BufferPool) (s : Socket) : Option Outcome :=
  if s.phase = .releasing then
    match s.recvBuffer, s.recvResult, s.recvQueue with
    | some buffer, _, _ =>
      some (p.returnBuffer buffer, { s with recvBuffer := none, recvOwned := false }, [])
    | none, (buffer, _) :: rest, _ =>
      some (p.returnBuffer buffer, { s with recvResult := rest }, [])
    | none, [], buffer :: rest => some (p.returnBuffer buffer, { s with recvQueue := rest }, [])
    -- what is left goes with the socket
    | none, [], [] => some (p, { phase := .released }, [])
  else none

/-- A step of one socket. -/
def Socket.step (cfg : Config) (p : BufferPool) (s : Socket) : SocketEvent → Option Outcome
  | .connect => if s.phase = .idle then some (p, { s with phase := .opening }, []) else none
  | .fill start =>
    if s.isFilling ∧ s.posting = none then
      if s.recvQueue.length < cfg.recvBufferCnt then
        match p.getBuffer start with
        | some (buffer, p') => some (p', { s with posting := some buffer }, [])
        | none => some (p, s.endFill, [])
      else some (p, s.endFill, [])
    else none
  | .postRecv status =>
    match s.posting with
    | some buffer =>
      if status ≠ 0 then some (p.returnBuffer buffer, { s with posting := none }.endFill, [])
      else some (p, { s with posting := none, recvQueue := s.recvQueue ++ [buffer] }, [])
    | none => none
  | .deliver =>
    match s.phase with
    | .filled buffer result =>
      match s.reader with
      | .waits call => some (p, { s with phase := .idle }.receive call buffer result, [])
      | _ =>
        if s.recvResult.length = cfg.cqSize then
          some (p.returnBuffer buffer, { s with phase := .failing }, [])
        else
          some (p, { s with
            phase := .idle
            recvResult := s.recvResult ++ [(buffer, result)] }, [])
    | _ => none
  | .importPeer => some (p, { s with remoteJetty := true }, [])
  | .write start =>
    if s.writing = none ∧ s.isDestroyed = false then
      match p.getBuffer start with
      | some (buffer, p') => some (p', { s with writing := some buffer }, [])
      | none => some (p, s, [])
    else none
  | .postSend status =>
    match s.writing with
    | some buffer =>
      let s' := { s with writing := none }
      if s.hasClose ∨ s.remoteJetty = false ∨ status ≠ 0 then
        some (p.returnBuffer buffer, s', [])
      -- no more are posted than the transport has room for
      else if s.sendCallbacks.length < cfg.sendBufferCnt + 2 then
        some (p, { s' with sendCallbacks := s.sendCallbacks ++ [buffer] }, [])
      else none
    | none => none
  | .sendDone =>
    if s.phase = .idle then
      match s.sendCallbacks with
      | buffer :: rest => some (p.returnBuffer buffer, { s with sendCallbacks := rest }, [])
      | [] => some (p, s, [])
    else none
  | .recvDone ec length =>
    if s.phase = .idle then
      match s.recvQueue with
      | [] => some (p, { s with phase := .failing }.resumeRecv .protocolError, [])
      | buffer :: rest =>
        if length = 0 then
          -- the peer has closed, and the buffer stays in the queue
          some (p, { s with hasClose := true }.resumeRecv .connectionReset, [])
        else some (p, { s with recvQueue := rest, phase := .filling buffer (ec, length) }, [])
    else none
  | .pollError =>
    if s.phase = .idle then some (p, { s with phase := .failing }.resumeRecv .ioError, [])
    else none
  | .failNext => failNext p s
  | .close =>
    if s.phase = .idle ∨ s.phase = .failing then
      if s.hasClose then some (p, s, [])
      else
        some (p, { s with hasClose := true, phase := .closing false }.resumeRecv
          .operationCanceled, [])
    else none
  | .read sizes readSome =>
    match s.reader with
    | .idle =>
      if s.isDestroyed then none else some (p, { s with reader := .nextBuffer sizes readSome }, [])
    | _ => none
  | .readViews size =>
    match s.reader with
    | .idle => if s.isDestroyed then none else some (p, { s with reader := .firstView size }, [])
    | _ => none
  | .readNext => readNext cfg p s
  | .destroy =>
    match s.reader, s.writing with
    | .idle, none =>
      if s.phase = .idle then
        -- `remain_data_` is not a part of the shared state
        if s.hasClose then some (p, { s with remain := 0, phase := .releasing }, [])
        else some (p, { s with remain := 0, hasClose := true, phase := .closing true }, [])
      else none
    | _, _ => none
  | .release => release p s

/-- What may happen. -/
def step (cfg : Config) (s : State) : Event → Option State
  | .open => some { s with sockets := s.sockets ++ [{}] }
  | .on k event => do
    let socket ← s.sockets[k]?
    let (pool, socket', views) ← socket.step cfg s.pool event
    return { pool, sockets := s.sockets.set k socket', views := s.views ++ views }
  | .dropView buffer =>
    if buffer ∈ s.views then
      some { s with pool := s.pool.returnBuffer buffer, views := s.views.erase buffer }
    else none

/-- A pool, and no sockets. -/
def system (cfg : Config) (bufferCount : ℕ) : TransitionSystem State Event :=
  ⟨{ pool := .initBuffers bufferCount }, step cfg⟩

/-! ### What is to hold -/

def Reader.isWaiting : Reader → Bool
  | .waits _ => true
  | _ => false

/-- The call comes to `async_receive`. -/
def Reader.isReceiving : Reader → Bool
  | .loops (.buffers left _ _) => left ≠ 0
  | .loops (.views size completed) => completed < size
  | _ => false

namespace Socket

variable (s : Socket)

/-- The buffer of the current message, unless it was returned or handed on. -/
def current : List ℕ := if s.recvOwned then s.recvBuffer.toList else []

/-- The buffer of a message on its way to a call, or to `recv_result_`. -/
def completed : List ℕ :=
  match s.phase with
  | .filling buffer _ | .filled buffer _ => [buffer]
  | _ => []

/-- The buffers of a socket, and of the calls in progress on it. -/
def owned : Multiset ℕ :=
  (s.recvQueue : Multiset ℕ) + (s.recvResult.map Prod.fst : List ℕ) + (s.current : Multiset ℕ) +
    (s.sendCallbacks : Multiset ℕ) + (s.completed : Multiset ℕ) +
      (s.posting.toList : Multiset ℕ) + (s.writing.toList : Multiset ℕ)

/-- A message becomes the current one when the buffer of the message before it was returned or
handed on. The destructor finds in `recv_buffer_` nothing, or a buffer that was not; and no send,
where the socket is closed. -/
def Orderly : SocketEvent → Prop
  | .deliver => s.reader.isWaiting → s.recvOwned = false
  | .readNext => s.reader.isReceiving → s.recvResult ≠ [] → s.recvOwned = false
  | .destroy => (s.recvBuffer ≠ none → s.recvOwned) ∧ (s.hasClose → s.sendCallbacks = [])
  | _ => True

end Socket

/-- What the pool, the sockets and the views own. -/
def State.owners (s : State) : Multiset ℕ :=
  s.pool.free + ((s.sockets.map Socket.owned).sum + (s.views : Multiset ℕ))

/-- Each of the `n` buffers is in one place, and the pool was not given one that it had already. -/
structure OwnedOnce (n : ℕ) (s : State) : Prop where
  once : ∀ i < n, s.owners.count i = 1
  lt : ∀ i ∈ s.owners, i < n
  returned : s.pool.duplicated = 0

def Orderly (s : State) : Event → Prop
  | .on k event =>
    match s.sockets[k]? with
    | some socket => socket.Orderly event
    | none => True
  | _ => True

/-! ### A step of a socket -/

/-- The call that a reader is at. -/
def Reader.call : Reader → Option Reading
  | .loops call | .waits call | .resumed call _ => some call
  | _ => none

/-- What holds of a socket. -/
structure SocketInvariant (s : Socket) : Prop where
  current : s.recvOwned → s.recvBuffer ≠ none
  remain : s.remain ≠ 0 → s.recvOwned
  resumed : ∀ call length, s.reader = .resumed call (none, length) → s.recvOwned
  /-- nothing remains of the message before the one that a read of views waits for -/
  views : ∀ size completed, s.reader.call = some (.views size completed) → s.remain = 0
  posting : s.posting ≠ none → s.isFilling
  destroyed : s.isDestroyed → s.reader = .idle ∧ s.writing = none ∧ s.remain = 0 ∧
    (s.recvBuffer ≠ none → s.recvOwned)
  releasing : s.phase = .releasing → s.sendCallbacks = []

/-- What holds behind a step, where others own the other buffers. -/
structure Keeps (n : ℕ) (others : Multiset ℕ) (o : Outcome) : Prop where
  socket : SocketInvariant o.2.1
  pool : o.1.Owned n (o.2.1.owned + ((o.2.2 : Multiset ℕ) + others))

variable {cfg : Config} {n : ℕ} {others : Multiset ℕ} {p : BufferPool} {s : Socket}

theorem keeps_of_eq {s' : Socket} {views : List ℕ} {owned : Multiset ℕ} (hp : p.Owned n owned)
    (hs : SocketInvariant s') (h : owned = s'.owned + ((views : Multiset ℕ) + others)) :
    Keeps n others (p, s', views) :=
  ⟨hs, h ▸ hp⟩

theorem owned_resumeRecv (ec : Errc) : (s.resumeRecv ec).owned = s.owned := by
  unfold Socket.resumeRecv
  split <;> rfl

theorem SocketInvariant.resumeRecv (hs : SocketInvariant s) (ec : Errc) :
    SocketInvariant (s.resumeRecv ec) := by
  unfold Socket.resumeRecv
  split
  · rename_i call hreader
    refine { hs with
      resumed := by rintro _ _ ⟨⟩
      views := fun size completed h => hs.views size completed (by rw [hreader]; exact h)
      destroyed := fun h => nomatch hreader.symm.trans (hs.destroyed h).1 }
  · exact hs

/-! ### The buffers of a socket -/

section Buffers

variable {buffer : ℕ} {rest : List ℕ}

theorem owned_of_recvOwned (howned : s.recvOwned) (hbuffer : s.recvBuffer = some buffer) :
    s.owned = {buffer} + { s with recvOwned := false }.owned := by
  simp only [Socket.owned, Socket.current, howned, hbuffer, if_true, Option.toList_some,
    Bool.false_eq_true, if_false, Multiset.coe_singleton, Multiset.coe_nil, add_zero]
  change _ = {buffer} + (_ + _ + _ + (s.completed : Multiset ℕ) + _ + _)
  abel

theorem owned_of_recvQueue (h : s.recvQueue = buffer :: rest) :
    s.owned = {buffer} + { s with recvQueue := rest }.owned := by
  simp only [Socket.owned, h, coe_cons]
  change _ = {buffer} + (_ + _ + (s.current : Multiset ℕ) + _ + (s.completed : Multiset ℕ) + _ + _)
  abel

theorem owned_of_recvResult {result : Result} {results : List (ℕ × Result)}
    (h : s.recvResult = (buffer, result) :: results) :
    s.owned = {buffer} + { s with recvResult := results }.owned := by
  simp only [Socket.owned, h, List.map_cons, coe_cons]
  change _ = {buffer} + (_ + _ + (s.current : Multiset ℕ) + _ + (s.completed : Multiset ℕ) + _ + _)
  abel

theorem owned_of_sendCallbacks (h : s.sendCallbacks = buffer :: rest) :
    s.owned = {buffer} + { s with sendCallbacks := rest }.owned := by
  simp only [Socket.owned, h, coe_cons]
  change _ = {buffer} + (_ + _ + (s.current : Multiset ℕ) + _ + (s.completed : Multiset ℕ) + _ + _)
  abel

theorem owned_of_posting (h : s.posting = some buffer) :
    s.owned = {buffer} + { s with posting := none }.owned := by
  simp only [Socket.owned, h, Option.toList_none, Option.toList_some, Multiset.coe_singleton,
    Multiset.coe_nil]
  change _ = {buffer} + (_ + _ + (s.current : Multiset ℕ) + _ + (s.completed : Multiset ℕ) + _ + _)
  abel

theorem owned_of_writing (h : s.writing = some buffer) :
    s.owned = {buffer} + { s with writing := none }.owned := by
  simp only [Socket.owned, h, Option.toList_none, Option.toList_some, Multiset.coe_singleton,
    Multiset.coe_nil]
  change _ = {buffer} + (_ + _ + (s.current : Multiset ℕ) + _ + (s.completed : Multiset ℕ) + _ + _)
  abel

theorem owned_push_recvQueue :
    { s with recvQueue := s.recvQueue ++ [buffer] }.owned = {buffer} + s.owned := by
  rw [Socket.owned, coe_concat]
  exact owned_of_recvQueue (s := { s with recvQueue := buffer :: s.recvQueue }) rfl

theorem owned_push_recvResult {result : Result} :
    { s with recvResult := s.recvResult ++ [(buffer, result)] }.owned = {buffer} + s.owned := by
  rw [Socket.owned, List.map_append, List.map_singleton, coe_concat]
  exact owned_of_recvResult (s := { s with recvResult := (buffer, result) :: s.recvResult }) rfl

theorem owned_push_sendCallbacks :
    { s with sendCallbacks := s.sendCallbacks ++ [buffer] }.owned = {buffer} + s.owned := by
  rw [Socket.owned, coe_concat]
  exact owned_of_sendCallbacks (s := { s with sendCallbacks := buffer :: s.sendCallbacks }) rfl

theorem owned_phase {phase : Phase} (h : { s with phase }.completed = s.completed) :
    { s with phase }.owned = s.owned := by
  unfold Socket.owned
  rw [h]
  rfl

end Buffers

/-! ### Reading -/

/-- A call goes on with no message at hand. -/
theorem SocketInvariant.reads (hs : SocketInvariant s) (hactive : s.reader ≠ .idle) {remain : ℕ}
    {recvOwned : Bool} {reader : Reader} (hcurrent : recvOwned → s.recvOwned)
    (hremain : remain ≠ 0 → recvOwned)
    (hreader : ∀ call length, reader ≠ .resumed call (none, length))
    (hviews : ∀ size completed, reader.call = some (.views size completed) → remain = 0) :
    SocketInvariant { s with remain, recvOwned, reader } where
  current h := hs.current (hcurrent h)
  remain := hremain
  resumed call length h := absurd h (hreader call length)
  views := hviews
  posting := hs.posting
  destroyed h := absurd (hs.destroyed h).1 hactive
  releasing := hs.releasing

/-- The buffer of the current message is returned where nothing remains of it. -/
theorem setRemain_eq (hs : SocketInvariant s) (howned : s.recvOwned)
    (hp : p.Owned n (s.owned + others)) (remain : ℕ) :
    (s.setRemain p remain).1.Owned n ((s.setRemain p remain).2.owned + others) ∧
      (s.setRemain p remain).2 = { s with remain, recvOwned := decide (remain ≠ 0) } := by
  obtain ⟨buffer, hbuffer⟩ := Option.ne_none_iff_exists'.mp (hs.current howned)
  unfold Socket.setRemain
  split
  · rename_i hzero
    rw [hbuffer]
    refine ⟨?_, by simp [hzero]⟩
    rw [owned_of_recvOwned howned hbuffer, add_assoc] at hp
    exact hp.returnBuffer
  · rename_i hne
    refine ⟨hp, ?_⟩
    rw [decide_eq_true hne, ← howned]

theorem SocketInvariant.receive (hs : SocketInvariant s) (hactive : s.reader ≠ .idle)
    {call : Reading} (hviews : ∀ size completed, call = .views size completed → s.remain = 0)
    (buffer : ℕ) (result : Result) : SocketInvariant (s.receive call buffer result) where
  current _ := nofun
  remain _ := rfl
  resumed _ _ _ := rfl
  views size completed h := hviews size completed (Option.some.inj h)
  posting := hs.posting
  destroyed h := absurd (hs.destroyed h).1 hactive
  releasing := hs.releasing

theorem owned_receive (hfree : s.recvOwned = false) (call : Reading) (buffer : ℕ)
    (result : Result) : (s.receive call buffer result).owned = s.owned + {buffer} := by
  have hbuffer : (s.receive call buffer result).recvBuffer = some buffer := rfl
  rw [owned_of_recvOwned rfl hbuffer, add_comm]
  simp only [Socket.owned, Socket.current, hfree]
  rfl

/-- `async_receive` makes a message the current one only when the last was returned or handed on. -/
theorem keeps_asyncReceive (hs : SocketInvariant s) (hp : p.Owned n (s.owned + others))
    {call : Reading} (hreader : s.reader = .loops call)
    (hfree : s.recvResult ≠ [] → s.recvOwned = false) :
    Keeps n others (asyncReceive p s call) := by
  have hactive : s.reader ≠ .idle := by
    rw [hreader]
    exact nofun
  have hviews : ∀ size completed, call = .views size completed → s.remain = 0 := by
    rintro size completed rfl
    exact hs.views size completed (by rw [hreader]; rfl)
  unfold asyncReceive
  split
  · rename_i buffer result rest hresults
    have hfree := hfree (by rw [hresults]; exact nofun)
    have hrest : SocketInvariant { s with recvResult := rest } := { hs with }
    refine keeps_of_eq hp (hrest.receive hactive hviews buffer result) ?_
    rw [owned_receive (s := { s with recvResult := rest }) hfree, owned_of_recvResult hresults,
      add_comm ({buffer} : Multiset ℕ), Multiset.coe_nil, zero_add]
  have hidle : s.owned + others = s.owned + ((([] : List ℕ) : Multiset ℕ) + others) := by
    rw [Multiset.coe_nil, zero_add]
  split
  · exact keeps_of_eq hp (hs.reads hactive id hs.remain nofun
      fun size completed h => hviews size completed (Option.some.inj h)) hidle
  · exact keeps_of_eq hp (hs.reads hactive id hs.remain nofun
      fun size completed h => hviews size completed (Option.some.inj h)) hidle

/-- A step that has no new views, and leaves the buffers where they are. -/
theorem keeps_of_owned (hp : p.Owned n (s.owned + others)) {s' : Socket} (hs : SocketInvariant s')
    (h : s'.owned = s.owned) : Keeps n others (p, s', []) := by
  refine keeps_of_eq hp hs ?_
  rw [h, Multiset.coe_nil, zero_add]

/-- A view takes the current buffer. -/
theorem keeps_detach (hp : p.Owned n (s.owned + others)) (howned : s.recvOwned) {buffer : ℕ}
    (hbuffer : s.recvBuffer = some buffer) {s' : Socket} (hs : SocketInvariant s')
    (h : s'.owned = { s with recvOwned := false }.owned) : Keeps n others (p, s', [buffer]) := by
  refine keeps_of_eq hp hs ?_
  rw [owned_of_recvOwned howned hbuffer, h, Multiset.coe_singleton]
  abel

theorem keeps_readNext (hs : SocketInvariant s) (hp : p.Owned n (s.owned + others))
    (horderly : s.Orderly .readNext) {o : Outcome} (h : readNext cfg p s = some o) :
    Keeps n others o := by
  have hactive : ∀ reader, s.reader = reader → reader ≠ .idle → s.reader ≠ .idle := by
    rintro _ rfl h
    exact h
  -- what remains of a message after the call has taken its part
  have hconsume : ∀ (remain : ℕ) (reader : Reader), s.recvOwned → s.reader ≠ .idle →
      reader.call = none ∨ (∃ left rest readSome, reader = .loops (.buffers left rest readSome)) →
        Keeps n others
          ((s.setRemain p remain).1, { (s.setRemain p remain).2 with reader }, []) := by
    intro remain reader howned hne hreader
    obtain ⟨hpool, hsocket⟩ := setRemain_eq hs howned hp remain
    rw [hsocket] at hpool ⊢
    refine keeps_of_owned hpool (hs.reads hne (fun _ => howned) decide_eq_true ?_ ?_) rfl
    · rintro call length rfl
      rcases hreader with hreader | ⟨_, _, _, hreader⟩ <;> cases hreader
    · intro size completed hcall
      rcases hreader with hreader | ⟨_, _, _, rfl⟩
      · rw [hreader] at hcall
        cases hcall
      · cases hcall
  unfold readNext at h
  split at h
  · cases h
  · cases h
  · rename_i hreader
    cases h
    exact keeps_of_owned hp (hs.reads (hactive _ hreader nofun) id hs.remain nofun nofun) rfl
  · rename_i size rest readSome hreader
    have hne := hactive _ hreader nofun
    split at h
    · cases h
      exact keeps_of_owned hp (hs.reads hne id hs.remain nofun nofun) rfl
    · rename_i hremain
      cases h
      exact hconsume _ _ (hs.remain hremain) hne (.inr ⟨_, _, _, rfl⟩)
  · rename_i size hreader
    have hne := hactive _ hreader nofun
    split at h
    · rename_i buffer hbuffer
      split at h
      · rename_i hzero
        cases h
        exact keeps_of_owned hp (hs.reads hne id hs.remain nofun fun _ _ _ => hzero) rfl
      · rename_i hremain
        cases h
        refine keeps_detach hp (hs.remain hremain) hbuffer ?_ rfl
        exact hs.reads hne nofun (fun h => absurd rfl h) nofun fun _ _ _ => rfl
    · rename_i hbuffer
      cases h
      refine keeps_of_owned hp (hs.reads hne id hs.remain nofun fun _ _ _ => ?_) rfl
      -- nothing remains where there is no buffer
      by_contra hremain
      exact hs.current (hs.remain hremain) hbuffer
  · rename_i left rest readSome hreader
    have hne := hactive _ hreader nofun
    split at h
    · cases h
      exact keeps_of_owned hp (hs.reads hne id hs.remain nofun nofun) rfl
    · rename_i hleft
      cases h
      exact keeps_asyncReceive hs hp hreader (horderly (by
        rw [hreader]
        exact decide_eq_true hleft))
  · rename_i size completed hreader
    have hne := hactive _ hreader nofun
    split at h
    · rename_i hlt
      cases h
      exact keeps_asyncReceive hs hp hreader (horderly (by
        rw [hreader]
        exact decide_eq_true hlt))
    · cases h
      exact keeps_of_owned hp (hs.reads hne id hs.remain nofun nofun) rfl
  · rename_i hreader
    cases h
    exact keeps_of_owned hp (hs.reads (hactive _ hreader nofun) id hs.remain nofun nofun) rfl
  · rename_i left rest readSome length hreader
    have hne := hactive _ hreader nofun
    cases h
    refine hconsume _ _ (hs.resumed _ _ hreader) hne ?_
    cases readSome with
    | true => exact .inl rfl
    | false => exact .inr ⟨_, _, _, rfl⟩
  · rename_i size completed length hreader
    have hne := hactive _ hreader nofun
    have hzero : s.remain = 0 := hs.views size completed (by rw [hreader]; rfl)
    split at h
    · cases h
      exact keeps_of_owned hp (hs.reads hne id hs.remain nofun nofun) rfl
    split at h
    · rename_i buffer hbuffer
      split at h
      · cases h
        exact keeps_of_owned hp (hs.reads hne id hs.remain nofun fun _ _ _ => hzero) rfl
      · cases h
        refine keeps_detach hp (hs.resumed _ _ hreader) hbuffer ?_ rfl
        exact hs.reads hne nofun (fun h => absurd hzero h) nofun fun _ _ _ => hzero
    · cases h
      exact keeps_of_owned hp (hs.reads hne id hs.remain nofun fun _ _ _ => hzero) rfl

/-! ### The other steps -/

/-- The executor goes on to something that is not the destructor. -/
theorem SocketInvariant.goesOn (hs : SocketInvariant s) {phase : Phase}
    (hposting : s.posting ≠ none → { s with phase }.isFilling)
    (halive : { s with phase }.isDestroyed = false) : SocketInvariant { s with phase } where
  current := hs.current
  remain := hs.remain
  resumed := hs.resumed
  views := hs.views
  posting := hposting
  destroyed h := absurd h (by rw [halive]; exact nofun)
  releasing h := by
    cases h
    cases halive

theorem SocketInvariant.posting_eq (hs : SocketInvariant s) (h : s.isFilling = false) :
    s.posting = none := by
  by_contra hne
  rw [hs.posting hne] at h
  cases h

/-- `fill_recv_queue` ends. -/
theorem keeps_endFill (hs : SocketInvariant s) (hp : p.Owned n (s.owned + others))
    (hposting : s.posting = none) : Keeps n others (p, s.endFill, []) := by
  have hnone : ∀ phase : Phase, s.posting ≠ none → { s with phase }.isFilling :=
    fun _ h => absurd hposting h
  unfold Socket.endFill
  split
  · rename_i hphase
    refine keeps_of_owned hp (hs.goesOn (hnone _) rfl) (owned_phase ?_)
    rw [Socket.completed, Socket.completed, hphase]
  · rename_i hphase
    refine keeps_of_owned hp (hs.goesOn (hnone _) rfl) (owned_phase ?_)
    rw [Socket.completed, Socket.completed, hphase]
  · exact keeps_of_owned hp hs rfl

/-- The first send is given up, or completed. -/
theorem keeps_popSend (hs : SocketInvariant s) (hp : p.Owned n (s.owned + others)) {buffer : ℕ}
    {rest : List ℕ} (hsends : s.sendCallbacks = buffer :: rest) :
    Keeps n others (p.returnBuffer buffer, { s with sendCallbacks := rest }, []) := by
  rw [owned_of_sendCallbacks hsends, add_assoc] at hp
  refine keeps_of_owned hp.returnBuffer { hs with releasing := fun h => ?_ } rfl
  rw [hs.releasing h] at hsends
  cases hsends

theorem keeps_failNext (hs : SocketInvariant s) (hp : p.Owned n (s.owned + others)) {o : Outcome}
    (h : failNext p s = some o) : Keeps n others o := by
  unfold failNext at h
  split at h
  · rename_i hsends
    cases h
    exact keeps_popSend hs hp hsends
  · rename_i hphase hsends
    have hposting := hs.posting_eq (by rw [Socket.isFilling, hphase])
    have hcompleted : s.completed = [] := by rw [Socket.completed, hphase]
    split at h
    · cases h
      exact keeps_of_owned hp (hs.goesOn (fun h => absurd hposting h) rfl)
        (owned_phase hcompleted.symm)
    · cases h
      have hclosed : SocketInvariant { s with hasClose := true } := { hs with }
      refine keeps_of_owned hp (SocketInvariant.resumeRecv (hclosed.goesOn
        (fun h => absurd hposting h) rfl) .operationCanceled) ?_
      rw [owned_resumeRecv]
      exact owned_phase (s := { s with hasClose := true }) hcompleted.symm
  · rename_i hsends
    cases h
    exact keeps_popSend hs hp hsends
  · rename_i destroyed hphase hsends
    cases h
    have hposting := hs.posting_eq (by rw [Socket.isFilling, hphase])
    have hcompleted : s.completed = [] := by rw [Socket.completed, hphase]
    cases destroyed with
    | false =>
      exact keeps_of_owned hp (hs.goesOn (fun h => absurd hposting h) rfl)
        (owned_phase hcompleted.symm)
    | true =>
      exact keeps_of_owned hp { hs with
        posting := fun h => absurd hposting h
        destroyed := fun _ => hs.destroyed (by rw [Socket.isDestroyed, hphase])
        releasing := fun _ => hsends } (owned_phase hcompleted.symm)
  · cases h

/-- `release_resources` owns what it returns, and nothing is left behind it. -/
theorem keeps_release (hs : SocketInvariant s) (hp : p.Owned n (s.owned + others)) {o : Outcome}
    (h : release p s = some o) : Keeps n others o := by
  unfold release at h
  split at h
  · rename_i hphase
    obtain ⟨hreader, hwriting, hremain, hcurrent⟩ :=
      hs.destroyed (by rw [Socket.isDestroyed, hphase])
    have hposting := hs.posting_eq (by rw [Socket.isFilling, hphase])
    split at h
    · rename_i buffer hbuffer
      cases h
      have howned := hcurrent (by rw [hbuffer]; exact nofun)
      rw [owned_of_recvOwned howned hbuffer, add_assoc] at hp
      exact keeps_of_owned hp.returnBuffer { hs with
        current := nofun
        remain := fun h => absurd hremain h
        resumed := fun _ _ h => nomatch hreader.symm.trans h
        destroyed := fun _ => ⟨hreader, hwriting, hremain, fun h => absurd rfl h⟩ } rfl
    · rename_i buffer result rest hbuffer hresults
      cases h
      rw [owned_of_recvResult hresults, add_assoc] at hp
      exact keeps_of_owned hp.returnBuffer { hs with } rfl
    · rename_i buffer rest hbuffer hresults hqueue
      cases h
      rw [owned_of_recvQueue hqueue, add_assoc] at hp
      exact keeps_of_owned hp.returnBuffer { hs with } rfl
    · rename_i hbuffer hresults hqueue
      cases h
      have hcurrent : s.current = [] := by
        rw [Socket.current, hbuffer]
        exact ite_self _
      have hcompleted : s.completed = [] := by rw [Socket.completed, hphase]
      refine keeps_of_owned hp ⟨nofun, fun h => absurd rfl h, nofun, nofun, fun h => absurd rfl h,
        fun _ => ⟨rfl, rfl, rfl, fun h => absurd rfl h⟩, nofun⟩ ?_
      rw [Socket.owned, Socket.owned, hqueue, hresults, hcurrent, hs.releasing hphase, hcompleted,
        hposting, hwriting]
      rfl
  · cases h

/-- A step of a socket keeps what it owns apart from what the others do. -/
theorem keeps_step (hs : SocketInvariant s) (hp : p.Owned n (s.owned + others))
    {event : SocketEvent} (horderly : s.Orderly event) {o : Outcome}
    (h : s.step cfg p event = some o) : Keeps n others o := by
  cases event with
  | connect =>
    simp only [Socket.step] at h
    split at h
    · rename_i hphase
      cases h
      have hposting := hs.posting_eq (by rw [Socket.isFilling, hphase])
      refine keeps_of_owned hp (hs.goesOn (fun h => absurd hposting h) rfl) (owned_phase ?_)
      rw [Socket.completed, Socket.completed, hphase]
    · cases h
  | fill start =>
    simp only [Socket.step] at h
    split at h
    · rename_i hfilling
      split at h
      · split at h
        · rename_i buffer p' hget
          cases h
          refine keeps_of_eq (hp.getBuffer hget) { hs with posting := fun _ => hfilling.1 } ?_
          rw [owned_of_posting (s := { s with posting := some buffer }) rfl, Multiset.coe_nil,
            zero_add, add_assoc, ← hfilling.2]
        · cases h
          exact keeps_endFill hs hp hfilling.2
      · cases h
        exact keeps_endFill hs hp hfilling.2
    · cases h
  | postRecv status =>
    simp only [Socket.step] at h
    split at h
    · rename_i buffer hposting
      have hnone : SocketInvariant { s with posting := none } :=
        { hs with posting := fun h => absurd rfl h }
      have howned := owned_of_posting hposting
      split at h
      · cases h
        rw [howned, add_assoc] at hp
        exact keeps_endFill hnone hp.returnBuffer rfl
      · cases h
        refine keeps_of_owned hp { hnone with } ?_
        rw [howned]
        exact owned_push_recvQueue (s := { s with posting := none })
    · cases h
  | deliver =>
    simp only [Socket.step] at h
    split at h
    · rename_i buffer result hphase
      have hposting := hs.posting_eq (by rw [Socket.isFilling, hphase])
      have hidle : SocketInvariant { s with phase := .idle } :=
        hs.goesOn (fun h => absurd hposting h) rfl
      have howned : s.owned = {buffer} + { s with phase := .idle }.owned := by
        simp only [Socket.owned, Socket.completed, hphase, Multiset.coe_singleton,
          Multiset.coe_nil]
        change _ = {buffer} + (_ + _ + (s.current : Multiset ℕ) + _ + _ + _ + _)
        abel
      split at h
      · rename_i call hreader
        cases h
        refine keeps_of_owned hp (hidle.receive (by rw [hreader]; exact nofun)
          (fun size completed hcall => hs.views size completed (by rw [hreader, hcall]; rfl))
            buffer result) ?_
        have hfree : s.recvOwned = false := horderly (by rw [hreader]; rfl)
        rw [owned_receive (s := { s with phase := .idle }) hfree, howned, add_comm]
      · split at h
        · cases h
          rw [howned, add_assoc] at hp
          exact keeps_of_owned hp.returnBuffer (hs.goesOn (fun h => absurd hposting h) rfl) rfl
        · cases h
          refine keeps_of_owned hp { hidle with } ?_
          rw [howned]
          exact owned_push_recvResult (s := { s with phase := .idle })
    · cases h
  | importPeer =>
    cases h
    exact keeps_of_owned hp { hs with } rfl
  | write start =>
    simp only [Socket.step] at h
    split at h
    · rename_i hwriting
      split at h
      · rename_i buffer p' hget
        cases h
        refine keeps_of_eq (hp.getBuffer hget) { hs with
          destroyed := fun h => nomatch hwriting.2.symm.trans h } ?_
        rw [owned_of_writing (s := { s with writing := some buffer }) rfl, Multiset.coe_nil,
          zero_add, add_assoc, ← hwriting.1]
      · cases h
        exact keeps_of_owned hp hs rfl
    · cases h
  | postSend status =>
    simp only [Socket.step] at h
    split at h
    · rename_i buffer hwriting
      have hnone : SocketInvariant { s with writing := none } := { hs with
        destroyed := fun h => nomatch hwriting.symm.trans (hs.destroyed h).2.1 }
      have howned := owned_of_writing hwriting
      split at h
      · cases h
        rw [howned, add_assoc] at hp
        exact keeps_of_owned hp.returnBuffer hnone rfl
      split at h
      · cases h
        refine keeps_of_owned hp { hnone with releasing := fun h => ?_ } ?_
        · have hdestroyed := hs.destroyed (by rw [Socket.isDestroyed, show s.phase = _ from h])
          exact nomatch hwriting.symm.trans hdestroyed.2.1
        · rw [howned]
          exact owned_push_sendCallbacks (s := { s with writing := none })
      · cases h
    · cases h
  | sendDone =>
    simp only [Socket.step] at h
    split at h
    · split at h
      · rename_i hsends
        cases h
        exact keeps_popSend hs hp hsends
      · cases h
        exact keeps_of_owned hp hs rfl
    · cases h
  | recvDone ec length =>
    simp only [Socket.step] at h
    split at h
    · rename_i hphase
      have hposting := hs.posting_eq (by rw [Socket.isFilling, hphase])
      have hcompleted : s.completed = [] := by rw [Socket.completed, hphase]
      split at h
      · cases h
        refine keeps_of_owned hp (SocketInvariant.resumeRecv (hs.goesOn
          (fun h => absurd hposting h) rfl) .protocolError) ?_
        rw [owned_resumeRecv]
        exact owned_phase hcompleted.symm
      · rename_i buffer rest hqueue
        split at h
        · cases h
          have hclosed : SocketInvariant { s with hasClose := true } := { hs with }
          refine keeps_of_owned hp (hclosed.resumeRecv .connectionReset) ?_
          rw [owned_resumeRecv]
          rfl
        · cases h
          have hrest : SocketInvariant { s with recvQueue := rest } := { hs with }
          refine keeps_of_owned hp (hrest.goesOn (fun _ => rfl) rfl) ?_
          simp only [Socket.owned, Socket.completed, hqueue, hphase, coe_cons,
            Multiset.coe_singleton, Multiset.coe_nil]
          change _ + _ + (s.current : Multiset ℕ) + _ + _ + _ + _ = _
          abel
    · cases h
  | pollError =>
    simp only [Socket.step] at h
    split at h
    · rename_i hphase
      cases h
      have hposting := hs.posting_eq (by rw [Socket.isFilling, hphase])
      refine keeps_of_owned hp (SocketInvariant.resumeRecv (hs.goesOn
        (fun h => absurd hposting h) rfl) .ioError) ?_
      rw [owned_resumeRecv]
      refine owned_phase ?_
      rw [Socket.completed, Socket.completed, hphase]
    · cases h
  | failNext => exact keeps_failNext hs hp h
  | close =>
    simp only [Socket.step] at h
    split at h
    · rename_i hphase
      split at h
      · cases h
        exact keeps_of_owned hp hs rfl
      · cases h
        have hposting := hs.posting_eq (by rcases hphase with h | h <;> rw [Socket.isFilling, h])
        have hcompleted : s.completed = [] := by
          rcases hphase with h | h <;> rw [Socket.completed, h]
        have hclosed : SocketInvariant { s with hasClose := true } := { hs with }
        refine keeps_of_owned hp (SocketInvariant.resumeRecv (hclosed.goesOn
          (fun h => absurd hposting h) rfl) .operationCanceled) ?_
        rw [owned_resumeRecv]
        exact owned_phase (s := { s with hasClose := true }) hcompleted.symm
    · cases h
  | read sizes readSome =>
    simp only [Socket.step] at h
    split at h
    · split at h
      · cases h
      · rename_i halive
        cases h
        exact keeps_of_owned hp { hs with
          resumed := nofun
          views := nofun
          destroyed := fun h => absurd h halive } rfl
    · cases h
  | readViews size =>
    simp only [Socket.step] at h
    split at h
    · split at h
      · cases h
      · rename_i halive
        cases h
        exact keeps_of_owned hp { hs with
          resumed := nofun
          views := nofun
          destroyed := fun h => absurd h halive } rfl
    · cases h
  | readNext => exact keeps_readNext hs hp horderly h
  | destroy =>
    simp only [Socket.step] at h
    split at h
    · rename_i hreader hwriting
      split at h
      · rename_i hphase
        have hposting := hs.posting_eq (by rw [Socket.isFilling, hphase])
        have hcompleted : s.completed = [] := by rw [Socket.completed, hphase]
        -- the destructor begins with what is in order
        have hdestroyed : ∀ (phase : Phase) (hasClose : Bool),
            (phase = .releasing → s.sendCallbacks = []) →
              SocketInvariant { s with remain := 0, hasClose, phase } :=
          fun phase hasClose hsends => { hs with
            remain := fun h => absurd rfl h
            views := fun _ _ _ => rfl
            posting := fun h => absurd hposting h
            destroyed := fun _ => ⟨hreader, hwriting, rfl, horderly.1⟩
            releasing := hsends }
        split at h
        · rename_i hclose
          cases h
          exact keeps_of_owned hp (hdestroyed .releasing s.hasClose fun _ => horderly.2 hclose)
            (owned_phase (s := { s with remain := 0 }) hcompleted.symm)
        · cases h
          exact keeps_of_owned hp (hdestroyed (.closing true) true nofun)
            (owned_phase (s := { s with remain := 0, hasClose := true }) hcompleted.symm)
      · cases h
    · cases h
  | release => exact keeps_release hs hp h

/-! ### Whole runs -/

/-- What holds of all sockets, and of the pool. -/
structure Invariant (n : ℕ) (s : State) : Prop where
  sockets : ∀ socket ∈ s.sockets, SocketInvariant socket
  pool : s.pool.Owned n ((s.sockets.map Socket.owned).sum + (s.views : Multiset ℕ))

theorem invariant_init (cfg : Config) (n : ℕ) : Invariant n (system cfg n).init where
  sockets _ hsocket := absurd hsocket List.not_mem_nil
  pool := by
    change (BufferPool.initBuffers n).Owned n ((([] : List Socket).map Socket.owned).sum +
      (([] : List ℕ) : Multiset ℕ))
    rw [List.map_nil, List.sum_nil, Multiset.coe_nil, add_zero]
    exact BufferPool.owned_initBuffers n

theorem socketInvariant_new : SocketInvariant {} where
  current := nofun
  remain h := absurd rfl h
  resumed := nofun
  views := nofun
  posting h := absurd rfl h
  destroyed := nofun
  releasing := nofun

theorem Invariant.step {s s' : State} {event : Event} (hs : Invariant n s)
    (horderly : Orderly s event) (h : step cfg s event = some s') : Invariant n s' := by
  cases event with
  | «open» =>
    cases h
    refine ⟨fun socket hsocket => ?_, ?_⟩
    · rcases List.mem_append.mp hsocket with hsocket | hsocket
      · exact hs.sockets socket hsocket
      · rw [List.mem_singleton.mp hsocket]
        exact socketInvariant_new
    · have hpool := hs.pool
      rw [← add_zero (List.sum _)] at hpool
      change s.pool.Owned n (((s.sockets ++ [({} : Socket)]).map Socket.owned).sum + _)
      rw [List.map_append, List.sum_append]
      exact hpool
  | on k event =>
    simp only [UrmaOwnership.step, Option.bind_eq_bind, Option.bind_eq_some_iff] at h
    obtain ⟨socket, hsocket, ⟨pool, socket', views⟩, hstep, hresult⟩ := h
    cases hresult
    -- the others are the other sockets, and the views
    obtain ⟨rest, hrest, hset⟩ := exists_sum_map_set Socket.owned hsocket
    have hpool := hs.pool
    rw [hrest, add_assoc] at hpool
    rw [Orderly, hsocket] at horderly
    have hkeeps := keeps_step (hs.sockets socket (List.mem_of_getElem? hsocket)) hpool horderly
      hstep
    refine ⟨fun socket'' hmem => ?_, ?_⟩
    · rcases List.mem_or_eq_of_mem_set hmem with hmem | rfl
      · exact hs.sockets socket'' hmem
      · exact hkeeps.socket
    · have hafter := hkeeps.pool
      change pool.Owned n (((s.sockets.set k socket').map Socket.owned).sum +
        ((s.views ++ views : List ℕ) : Multiset ℕ))
      have heq : socket'.owned + rest + ((s.views : Multiset ℕ) + views) =
          socket'.owned + ((views : Multiset ℕ) + (rest + s.views)) := by abel
      rw [hset, ← Multiset.coe_add, heq]
      exact hafter
  | dropView buffer =>
    simp only [UrmaOwnership.step] at h
    split at h
    · rename_i hmem
      cases h
      refine ⟨hs.sockets, ?_⟩
      have hpool := hs.pool
      have hviews : (s.views : Multiset ℕ) = {buffer} + (s.views.erase buffer : List ℕ) := by
        rw [← coe_cons]
        exact Multiset.coe_eq_coe.mpr (List.perm_cons_erase hmem)
      rw [hviews, add_left_comm] at hpool
      exact hpool.returnBuffer
    · cases h

theorem Invariant.ownedOnce {s : State} (hs : Invariant n s) : OwnedOnce n s where
  once i hi := by
    rw [State.owners, hs.pool.total]
    exact Multiset.count_eq_one_of_mem (Multiset.nodup_range n) (Multiset.mem_range.mpr hi)
  lt i hi := hs.pool.lt hi
  returned := hs.pool.duplicated

/-- In a run of orderly steps each buffer is in one place, and none is returned twice. -/
theorem ownedOnce_of_reaches {s : State} (h : (system cfg n).Reaches Orderly s) :
    OwnedOnce n s := by
  have hinvariant : Invariant n s :=
    h.invariant (invariant_init cfg n) fun s event s' hs horderly hstep => hs.step horderly hstep
  exact hinvariant.ownedOnce

instance (s : Socket) (event : SocketEvent) : Decidable (s.Orderly event) := by
  unfold Socket.Orderly
  split <;> infer_instance

instance (s : State) (event : Event) : Decidable (Orderly s event) := by
  unfold Orderly
  split
  · split <;> infer_instance
  · infer_instance

def smallConfig : Config := ⟨1, 2, 4, 8⟩

/-- A socket is opened and connected. -/
def connects (k : ℕ) : List Event :=
  [.open, .on k .connect, .on k .importPeer, .on k (.fill 0), .on k (.postRecv 0), .on k (.fill 0)]

/-- A message of some length arrives, while no other is on its way. -/
def arrives (k length : ℕ) : List Event :=
  [.on k (.recvDone none length), .on k (.fill 0), .on k (.postRecv 0), .on k (.fill 0),
    .on k .deliver]

/-- A message is read in two parts, a copy and a view, and the view is dropped. A send is completed,
one more message arrives, and another socket is destroyed. -/
def orderlyRun : List Event :=
  connects 0 ++ ([.on 0 (.read [3] false), .on 0 .readNext, .on 0 .readNext] : List Event) ++
    arrives 0 5 ++
    ([.on 0 .readNext, .on 0 .readNext, .on 0 .readNext, .on 0 (.readViews 2), .on 0 .readNext,
      .on 0 .readNext, .dropView 0] : List Event) ++ connects 1 ++
        ([.on 0 (.write 0), .on 0 (.postSend 0), .on 0 .sendDone] : List Event) ++ arrives 0 4 ++
          ([.on 1 .destroy, .on 1 .failNext, .on 1 .release, .on 1 .release] : List Event)

theorem ownedOnce_orderlyRun : ∃ s, (system smallConfig 4).runIf Orderly
    (system smallConfig 4).init orderlyRun = some s ∧
      s.sockets.map Socket.phase = [.idle, .released] ∧ OwnedOnce 4 s := by
  refine ⟨((system smallConfig 4).runIf Orderly (system smallConfig 4).init orderlyRun).getD
    (system smallConfig 4).init, rfl, rfl, ?_⟩
  have hrun : (system smallConfig 4).runIf Orderly (system smallConfig 4).init orderlyRun =
      some (((system smallConfig 4).runIf Orderly (system smallConfig 4).init orderlyRun).getD
        (system smallConfig 4).init) := rfl
  exact ownedOnce_of_reaches (reaches_of_runIf .init hrun)

/-- A message is read, and its buffer is posted by another socket when the first is destroyed. -/
def staleRun : List Event :=
  connects 0 ++ arrives 0 5 ++
    ([.on 0 (.read [5] false), .on 0 .readNext, .on 0 .readNext, .on 0 .readNext, .on 0 .readNext,
      .on 0 .readNext] : List Event) ++ connects 1 ++
      ([.on 0 .destroy, .on 0 .failNext, .on 0 .release] : List Event)

/-- The destructor returns the buffer, which the other socket receives into. -/
theorem not_ownedOnce : ¬ ∀ (cfg : Config) (n : ℕ) (s : State),
    (system cfg n).Reachable s → OwnedOnce n s := by
  intro h
  have hrun : (system smallConfig 2).runIf (fun _ _ => True) (system smallConfig 2).init
      staleRun = some (((system smallConfig 2).runIf (fun _ _ => True)
        (system smallConfig 2).init staleRun).getD (system smallConfig 2).init) := rfl
  have honce := (h smallConfig 2 _ (reaches_of_runIf .init hrun)).once 0 Nat.zero_lt_two
  exact absurd honce (by decide +kernel)

end Yalantinglibs.CoroIo.UrmaOwnership
