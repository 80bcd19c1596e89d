import Yalantinglibs.CoroIo.NdIo
import Yalantinglibs.Data.TransitionSystem

/-!
# The byte stream of a NetworkDirect socket

One direction of a connection: `async_write` at one end, and at the other end the receives of
`coro_io/networkdirect/nd_socket.hpp` with `async_read` and `async_read_some`. Every message is
received, in the order of the sends, into the buffer that was posted first; a call waits for the
completion of one send, or for one message. `arm_recv_buffers` goes on one buffer at a step, since
the pool's limit is shared with sockets of other threads.

## Main definitions

* `State`, `Event`, `step` — both ends, and what may happen to them
* `Streams` — what is to hold of messages, reads and waiting
* `Supplied` — when it does

## Main results

* `streams_of_reaches` — it does in runs of steps that are supplied
-/

set_option autoImplicit false

namespace Yalantinglibs.CoroIo.Nd

open ByteCodec TransitionSystem

/-! ### The model -/

inductive Errc
  | notConnected
  | noBufferSpace
  | invalidArgument
  | disconnected
  /-- what posting has returned, or the status of a completion -/
  | status (n : ℕ)
  deriving DecidableEq

structure Config where
  /-- `buffer_size_`, as both ends have agreed -/
  bufferSize : ℕ
  recvBufferCnt : ℕ
  /-- the size of the pool's buffers, and `max_memory_usage` -/
  poolBufferSize : ℕ
  maxMemoryUsage : ℕ
  bufferSize_pos : 0 < bufferSize
  recvBufferCnt_pos : 0 < recvBufferCnt

/-- The pool of the reading end. -/
structure Pool where
  freeBuffers : ℕ
  memoryUsage : ℕ
  /-- memory can be allocated and registered -/
  registers : Bool
  deriving DecidableEq

/-- `get_buffer`. -/
def Pool.getBuffer (cfg : Config) (p : Pool) : Option Pool :=
  if 0 < p.freeBuffers then some { p with freeBuffers := p.freeBuffers - 1 }
  else if cfg.maxMemoryUsage < cfg.poolBufferSize + p.memoryUsage then none
  else if p.registers then some { p with memoryUsage := p.memoryUsage + cfg.poolBufferSize }
  else none

/-- A buffer is returned. -/
def Pool.enqueue (p : Pool) : Pool := { p with freeBuffers := p.freeBuffers + 1 }

/-- A call of `async_write` that waits for a completion. -/
structure WriteCall where
  buffers : List Bytes
  sentTotal : ℕ := 0

/-- What a call of `async_write` returns. -/
structure WriteResult where
  buffers : List Bytes
  ec : Option Errc
  sentTotal : ℕ

/-- A call of `async_read` or `async_read_some` that waits for a message. -/
structure ReadCall where
  buffers : List Bytes
  total : ℕ
  readSome : Bool
  got : ℕ := 0

/-- What a call of `async_read` or `async_read_some` returns, and its buffers then. -/
structure ReadResult where
  buffers : List Bytes
  total : ℕ
  readSome : Bool
  ec : Option Errc
  got : ℕ

/-- The writing end. -/
structure Sender where
  writer : Option WriteCall := none
  hasClose : Bool := false
  writes : List WriteResult := []
  messages : List Bytes := []

/-- The reading end. -/
structure Receiver where
  /-- `outstanding_recv_`, the number of buffers in `posted_recv_bufs_` -/
  outstandingRecv : ℕ := 0
  recvResults : List (Option Errc × Bytes) := []
  /-- the call that `recv_cb_` resumes -/
  reader : Option ReadCall := none
  /-- there is a buffer in `current_recv_`, and its bytes from `recv_off_` on -/
  currentRecv : Bool := false
  remain : Bytes := []
  hasClose : Bool := false
  /-- `arm_recv_buffers` is in its loop -/
  arming : Bool := true
  /-- a receive has failed -/
  recvFailed : Bool := false
  pool : Pool
  reads : List ReadResult := []

structure State where
  sender : Sender := {}
  /-- the messages that were not received yet -/
  transit : List Bytes := []
  receiver : Receiver

inductive Event
  /-- `async_write`; whether there is a buffer for the first message, and what posting it returns -/
  | write (buffers : List Bytes) (buffer : Bool) (status : ℕ)
  /-- a send is completed, and the same for the next message -/
  | sent (buffer : Bool) (status : ℕ)
  | closeSender
  | read (buffers : List Bytes) (readSome : Bool)
  /-- the next message is received, or the receive that was posted first fails -/
  | received
  | recvFails (status : ℕ)
  /-- the next round of `arm_recv_buffers` -/
  | arm
  | close
  /-- others take buffers and memory, and give them back -/
  | poolChanges (pool : Pool)

/-- The size of the next message. -/
def WriteCall.nextSize (cfg : Config) (call : WriteCall) : ℕ :=
  min cfg.bufferSize (call.buffers.flatten.length - call.sentTotal)

namespace Sender

variable (s : Sender)

def finish (call : WriteCall) (ec : Option Errc) : Sender :=
  { s with writer := none, writes := s.writes ++ [⟨call.buffers, ec, call.sentTotal⟩] }

/-- The loop of `async_write`, up to the next message. -/
def writeOn (cfg : Config) (call : WriteCall) (buffer : Bool) (status : ℕ) :
    Sender × Option Bytes :=
  if call.sentTotal < call.buffers.flatten.length then
    if s.hasClose then (s.finish call (some .notConnected), none)
    else if buffer = false then (s.finish call (some .noBufferSpace), none)
    else
      let message := copyFromBufferSequence call.buffers call.sentTotal (call.nextSize cfg)
      if message.length ≠ call.nextSize cfg then (s.finish call (some .invalidArgument), none)
      else if status ≠ 0 then (s.finish call (some (.status status)), none)
      else ({ s with writer := some call, messages := s.messages ++ [message] }, some message)
  else (s.finish call none, none)

end Sender

namespace Receiver

variable (r : Receiver)

/-- `consume`, for the buffers of a call. -/
def consume (call : ReadCall) : Receiver × ReadCall :=
  let c := consumeToBufferSequence call.buffers call.got (call.total - call.got) r.remain
  let r' := { r with remain := c.remain }
  -- a buffer that is used up is returned
  (if c.copied ≠ 0 ∧ c.remain = [] then { r' with currentRecv := false, pool := r.pool.enqueue }
    else r', { call with buffers := c.buffers, got := call.got + c.copied })

/-- A result is made the current one; the buffer before it is returned, if there was one. -/
def deliver (bytes : Bytes) : Receiver :=
  { r with
    remain := bytes
    currentRecv := true
    pool := if r.currentRecv then r.pool.enqueue else r.pool }

def finish (call : ReadCall) (ec : Option Errc) (results : List (Option Errc × Bytes)) :
    Receiver :=
  { r with
    recvResults := results
    reader := none
    reads := r.reads ++ [⟨call.buffers, call.total, call.readSome, ec, call.got⟩] }

/-- The loop of `nd_async_read_impl`, in front of `async_recv_one`. -/
def readOn (r : Receiver) (call : ReadCall) : List (Option Errc × Bytes) → Receiver
  | [] =>
    if r.hasClose then r.finish call (some .disconnected) []
    else { r with recvResults := [], reader := some call }
  | (ec, bytes) :: results =>
    let r' := r.deliver bytes
    if ec ≠ none then r'.finish call ec results
    -- the peer has closed
    else if bytes = [] then r'.finish call none results
    else
      let c := r'.consume call
      if c.2.readSome ∨ c.2.total ≤ c.2.got then c.1.finish c.2 none results
      else c.1.readOn c.2 results

/-- `nd_async_read_impl`. -/
def read (buffers : List Bytes) (readSome : Bool) : Receiver :=
  let call : ReadCall := { buffers, total := buffers.flatten.length, readSome }
  if call.total = 0 then r.finish call none r.recvResults
  else if r.remain = [] then r.readOn call r.recvResults
  else
    let c := r.consume call
    if c.2.readSome ∧ c.2.got ≠ 0 ∨ c.2.total ≤ c.2.got then c.1.finish c.2 none r.recvResults
    else c.1.readOn c.2 r.recvResults

/-- `on_recv_complete`, up to `arm_recv_buffers`. -/
def onRecvComplete (ec : Option Errc) (bytes : Bytes) : Receiver :=
  let r' := { r with
    outstandingRecv := r.outstandingRecv - 1
    arming := ec = none ∧ r.hasClose = false }
  match r.reader with
  | some call => { r' with reader := none }.readOn call ((ec, bytes) :: r.recvResults)
  | none => { r' with recvResults := r.recvResults ++ [(ec, bytes)] }

/-- A round of the loop of `arm_recv_buffers`. -/
def armRecvBuffers (cfg : Config) : Receiver :=
  if r.hasClose = false ∧ r.outstandingRecv < cfg.recvBufferCnt then
    match r.pool.getBuffer cfg with
    | some pool => { r with pool, outstandingRecv := r.outstandingRecv + 1 }
    | none => { r with arming := false }
  else { r with arming := false }

/-- `close`, and `close_impl`. -/
def close : Receiver :=
  if r.hasClose then r
  else
    let r' := { r with hasClose := true }
    match r.reader with
    | some call => r'.finish call (some .disconnected) r.recvResults
    | none => r'

end Receiver

/-- The writing end goes on, and its message is on the way. -/
def State.write (cfg : Config) (s : State) (call : WriteCall) (buffer : Bool) (status : ℕ) :
    State :=
  let w := s.sender.writeOn cfg call buffer status
  { s with sender := w.1, transit := s.transit ++ w.2.toList }

/-- What may happen to the two ends. -/
def step (cfg : Config) (s : State) : Event → Option State
  | .write buffers buffer status =>
    match s.sender.writer with
    | none => some (s.write cfg { buffers } buffer status)
    -- one at a time
    | some _ => none
  | .sent buffer status =>
    match s.sender.writer with
    | some call =>
      some (s.write cfg { call with sentTotal := call.sentTotal + call.nextSize cfg } buffer status)
    | none => none
  | .closeSender => some { s with sender := { s.sender with hasClose := true } }
  | .read buffers readSome =>
    match s.receiver.reader with
    | none => some { s with receiver := s.receiver.read buffers readSome }
    | some _ => none
  | .received =>
    match s.transit with
    | message :: rest =>
      if s.receiver.arming = false ∧ 0 < s.receiver.outstandingRecv then
        some { s with transit := rest, receiver := s.receiver.onRecvComplete none message }
      else none
    | [] => none
  | .recvFails status =>
    if s.receiver.arming = false ∧ 0 < s.receiver.outstandingRecv then
      let r := s.receiver.onRecvComplete (some (.status status)) []
      some { s with receiver := { r with recvFailed := true } }
    else none
  | .arm =>
    if s.receiver.arming then some { s with receiver := s.receiver.armRecvBuffers cfg } else none
  | .close => some { s with receiver := s.receiver.close }
  | .poolChanges pool => some { s with receiver := { s.receiver with pool } }

/-- Both ends are connected, and the reading end comes to post its first receives. -/
def system (cfg : Config) (pool : Pool) : TransitionSystem State Event :=
  ⟨{ receiver := { pool } }, step cfg⟩

/-! ### What is to hold -/

/-- The bytes that a call has sent, and those that one has read. -/
def WriteResult.bytes (w : WriteResult) : Bytes := w.buffers.flatten.take w.sentTotal

def ReadResult.bytes (r : ReadResult) : Bytes := r.buffers.flatten.take r.got

/-- The bytes that are sent for the call that waits. -/
def Sender.writing (cfg : Config) (s : Sender) : Bytes :=
  match s.writer with
  | some call => call.buffers.flatten.take (call.sentTotal + call.nextSize cfg)
  | none => []

/-- The bytes that the call that waits has read. -/
def Receiver.reading (r : Receiver) : Bytes :=
  match r.reader with
  | some call => call.buffers.flatten.take call.got
  | none => []

/-- A call returns how many bytes it has read: `async_read` all that it asks for, unless it fails,
and `async_read_some` one at least. -/
structure ReadResult.Correct (r : ReadResult) : Prop where
  got : r.got = r.bytes.length
  le : r.got ≤ r.total
  all : r.ec = none → r.readSome = false → r.got = r.total
  some : r.ec = none → r.readSome → r.total ≠ 0 → r.got ≠ 0

/-- Messages are not empty and not too long, and are the bytes that were written; the reads have
these bytes one behind the other; and a call waits for a message only where a receive is posted, or
the pool has no buffer. -/
structure Streams (cfg : Config) (s : State) : Prop where
  message : ∀ m ∈ s.sender.messages, m ≠ [] ∧ m.length ≤ cfg.bufferSize
  written : s.sender.messages.flatten =
    s.sender.writes.flatMap WriteResult.bytes ++ s.sender.writing cfg
  wrote : ∀ w ∈ s.sender.writes, w.ec = none → w.sentTotal = w.buffers.flatten.length
  read : s.receiver.reads.flatMap ReadResult.bytes ++ s.receiver.reading <+:
    s.sender.messages.flatten
  returned : ∀ r ∈ s.receiver.reads, r.Correct
  waits : s.receiver.hasClose = false → s.receiver.recvFailed = false →
    s.receiver.arming = false → s.receiver.reader ≠ none →
      0 < s.receiver.outstandingRecv ∨ s.receiver.pool.getBuffer cfg = none

/-- The pool has a buffer where `arm_recv_buffers` has none posted. -/
def Supplied (cfg : Config) (s : State) : Event → Prop
  | .arm => s.receiver.hasClose = false → s.receiver.outstandingRecv = 0 →
      s.receiver.pool.getBuffer cfg ≠ none
  | _ => True

/-! ### Writing -/

variable {cfg : Config}

/-- What holds of the writing end. -/
structure SenderInvariant (cfg : Config) (s : Sender) : Prop where
  message : ∀ m ∈ s.messages, m ≠ [] ∧ m.length ≤ cfg.bufferSize
  written : s.messages.flatten = s.writes.flatMap WriteResult.bytes ++ s.writing cfg
  wrote : ∀ w ∈ s.writes, w.ec = none → w.sentTotal = w.buffers.flatten.length
  sending : ∀ call, s.writer = some call → call.sentTotal < call.buffers.flatten.length

theorem SenderInvariant.writeOn {s : Sender} {call : WriteCall} (buffer : Bool) (status : ℕ)
    (hmessage : ∀ m ∈ s.messages, m ≠ [] ∧ m.length ≤ cfg.bufferSize)
    (hwritten : s.messages.flatten = s.writes.flatMap WriteResult.bytes ++
      call.buffers.flatten.take call.sentTotal)
    (hwrote : ∀ w ∈ s.writes, w.ec = none → w.sentTotal = w.buffers.flatten.length)
    (hle : call.sentTotal ≤ call.buffers.flatten.length) :
    SenderInvariant cfg (s.writeOn cfg call buffer status).1 ∧
      (s.writeOn cfg call buffer status).1.messages =
        s.messages ++ (s.writeOn cfg call buffer status).2.toList := by
  have hfinish : ∀ ec, (ec = none → call.sentTotal = call.buffers.flatten.length) →
      SenderInvariant cfg (s.finish call ec) ∧
        (s.finish call ec).messages = s.messages ++ (none : Option Bytes).toList := by
    intro ec hec
    refine ⟨⟨hmessage, ?_, ?_, nofun⟩, (List.append_nil _).symm⟩
    · change s.messages.flatten =
        (s.writes ++ [(⟨call.buffers, ec, call.sentTotal⟩ : WriteResult)]).flatMap
          WriteResult.bytes ++ []
      rw [hwritten, List.flatMap_append, List.append_nil]
      simp only [List.flatMap_cons, List.flatMap_nil, List.append_nil]
      rfl
    · intro w hw hnone
      rcases List.mem_append.mp hw with hw | hw
      · exact hwrote w hw hnone
      · obtain rfl := List.mem_singleton.mp hw
        exact hec hnone
  rw [Sender.writeOn]
  by_cases hmore : call.sentTotal < call.buffers.flatten.length
  · rw [if_pos hmore]
    split
    · exact hfinish _ nofun
    split
    · exact hfinish _ nofun
    dsimp only
    split
    · exact hfinish _ nofun
    rename_i hlength
    split
    · exact hfinish _ nofun
    have hpos := cfg.bufferSize_pos
    have hsize : call.sentTotal + call.nextSize cfg ≤ call.buffers.flatten.length ∧
        0 < call.nextSize cfg ∧ call.nextSize cfg ≤ cfg.bufferSize := by
      rw [WriteCall.nextSize]
      omega
    refine ⟨⟨?_, ?_, hwrote, ?_⟩, rfl⟩
    · intro m hm
      rcases List.mem_append.mp hm with hm | hm
      · exact hmessage m hm
      · obtain rfl := List.mem_singleton.mp hm
        have hlength := not_not.mp hlength
        refine ⟨fun hnil => ?_, by omega⟩
        rw [hnil, List.length_nil] at hlength
        omega
    · change (s.messages ++ [_]).flatten = s.writes.flatMap WriteResult.bytes ++
        call.buffers.flatten.take (call.sentTotal + call.nextSize cfg)
      rw [List.flatten_append, hwritten, copyFromBufferSequence_eq, List.take_add,
        List.append_assoc]
      simp only [List.flatten_cons, List.flatten_nil, List.append_nil]
    · rintro _ ⟨⟩
      exact hmore
  · rw [if_neg hmore]
    exact hfinish none fun _ => by omega

/-! ### Reading -/

/-- The bytes that a call has read. -/
def ReadCall.bytes (call : ReadCall) : Bytes := call.buffers.flatten.take call.got

/-- A call that may wait for a message. -/
structure ReadCall.Waiting (call : ReadCall) : Prop where
  total : call.buffers.flatten.length = call.total
  lt : call.got < call.total

/-- The bytes of results that were not delivered. -/
def resultBytes (results : List (Option Errc × Bytes)) : Bytes := results.flatMap Prod.snd

/-- A receive has a message, which has bytes, or has failed. -/
def ResultsOk (results : List (Option Errc × Bytes)) : Prop :=
  ∀ p ∈ results, (p.1 = none → p.2 ≠ []) ∧ (p.1 ≠ none → p.2 = [])

/-- What holds of the reading end, when it was handed these bytes. -/
structure ReceiverInvariant (r : Receiver) (input : Bytes) : Prop where
  conserve : r.reads.flatMap ReadResult.bytes ++ r.reading ++ r.remain ++
    resultBytes r.recvResults = input
  results : ResultsOk r.recvResults
  waiting : ∀ call, r.reader = some call →
    call.Waiting ∧ r.remain = [] ∧ r.recvResults = []
  returned : ∀ p ∈ r.reads, p.Correct

/-- What `consume` makes of the current message, and of the buffers of a call. -/
structure Consumes (r : Receiver) (call : ReadCall) (c : Receiver × ReadCall) : Prop where
  bytes : c.2.bytes ++ c.1.remain = call.bytes ++ r.remain
  got : c.2.got = call.got + min (call.total - call.got) r.remain.length
  remain : c.1.remain.length = r.remain.length - min (call.total - call.got) r.remain.length
  total : c.2.buffers.flatten.length = c.2.total ∧ c.2.total = call.total
  readSome : c.2.readSome = call.readSome
  reads : c.1.reads = r.reads
  recvResults : c.1.recvResults = r.recvResults

theorem consume_spec {r : Receiver} {call : ReadCall} (h : call.Waiting) :
    Consumes r call (r.consume call) := by
  have hle : call.got + (call.total - call.got) ≤ call.buffers.flatten.length := by
    have := h.total
    have := h.lt
    omega
  obtain ⟨hcopied, hremain, hbuffers⟩ := consumeToBufferSequence_spec call.buffers call.got
    (call.total - call.got) r.remain hle
  have hlt := h.lt
  have htotal := h.total
  rw [Receiver.consume]
  dsimp only
  generalize consumeToBufferSequence call.buffers call.got (call.total - call.got) r.remain = c at *
  have hrest : ∀ r' : Receiver, r'.remain = c.remain → r'.reads = r.reads →
      r'.recvResults = r.recvResults →
      Consumes r call (r', { call with buffers := c.buffers, got := call.got + c.copied }) := by
    intro r' hr' hreads hresults
    refine ⟨?_, ?_, ?_, ⟨?_, rfl⟩, rfl, hreads, hresults⟩
    · change c.buffers.flatten.take (call.got + c.copied) ++ r'.remain =
        call.buffers.flatten.take call.got ++ r.remain
      have hfront : (call.buffers.flatten.take call.got ++ r.remain.take c.copied).length =
          call.got + c.copied := by
        rw [List.length_append, List.length_take, List.length_take]
        omega
      rw [hr', hbuffers, hremain, ← hfront, List.take_left, List.append_assoc,
        List.take_append_drop]
    · rw [← hcopied]
    · rw [hr', hremain, List.length_drop, hcopied]
    · change c.buffers.flatten.length = call.total
      rw [hbuffers]
      simp only [List.length_append, List.length_take, List.length_drop]
      omega
  split
  · exact hrest _ rfl rfl rfl
  · exact hrest _ rfl rfl rfl

theorem readResult_bytes (call : ReadCall) (ec : Option Errc) :
    (⟨call.buffers, call.total, call.readSome, ec, call.got⟩ : ReadResult).bytes = call.bytes := rfl

/-- A call ends. -/
theorem ReceiverInvariant.finish {r : Receiver} {call : ReadCall} {input : Bytes} {ec : Option Errc}
    {results : List (Option Errc × Bytes)} (hreturned : ∀ p ∈ r.reads, p.Correct)
    (htotal : call.buffers.flatten.length = call.total) (hle : call.got ≤ call.total)
    (hall : ec = none → call.readSome = false → call.got = call.total)
    (hsome : ec = none → call.readSome → call.total ≠ 0 → call.got ≠ 0)
    (hresults : ResultsOk results)
    (hinput : r.reads.flatMap ReadResult.bytes ++ call.bytes ++ r.remain ++ resultBytes results =
      input) : ReceiverInvariant (r.finish call ec results) input where
  conserve := by
    change (r.reads ++ [(⟨call.buffers, call.total, call.readSome, ec, call.got⟩ :
      ReadResult)]).flatMap ReadResult.bytes ++ [] ++ r.remain ++ resultBytes results = input
    rw [← hinput, List.flatMap_append, List.append_nil]
    simp only [List.flatMap_cons, List.flatMap_nil, List.append_nil, readResult_bytes]
  results := hresults
  waiting := nofun
  returned := by
    intro p hp
    rcases List.mem_append.mp hp with hp | hp
    · exact hreturned p hp
    · obtain rfl := List.mem_singleton.mp hp
      refine ⟨?_, hle, hall, hsome⟩
      change call.got = (call.buffers.flatten.take call.got).length
      rw [List.length_take]
      omega

/-- A call goes on with the results that there are. -/
theorem ReceiverInvariant.readOn {r : Receiver} {call : ReadCall} {input : Bytes}
    {results : List (Option Errc × Bytes)} (hcall : call.Waiting) (hremain : r.remain = [])
    (hreturned : ∀ p ∈ r.reads, p.Correct) (hresults : ResultsOk results)
    (hinput : r.reads.flatMap ReadResult.bytes ++ call.bytes ++ resultBytes results = input) :
    ReceiverInvariant (r.readOn call results) input := by
  induction results generalizing r call with
  | nil =>
    rw [Receiver.readOn]
    split
    · refine .finish hreturned hcall.total hcall.lt.le nofun nofun hresults ?_
      rw [hremain, List.append_nil]
      exact hinput
    · refine ⟨?_, hresults, ?_, hreturned⟩
      · change r.reads.flatMap ReadResult.bytes ++ call.bytes ++ r.remain ++ [] = input
        rw [hremain, List.append_nil]
        exact hinput
      · rintro _ ⟨⟩
        exact ⟨hcall, hremain, rfl⟩
  | cons p results ih =>
    obtain ⟨ec, bytes⟩ := p
    have hrest : ResultsOk results := fun p hp => hresults p (List.mem_cons_of_mem _ hp)
    have hfirst := hresults _ List.mem_cons_self
    have hsplit : r.reads.flatMap ReadResult.bytes ++ call.bytes ++ bytes ++ resultBytes results =
        input := by
      rw [← hinput, List.append_assoc _ bytes]
      rfl
    rw [Receiver.readOn]
    dsimp only
    by_cases hec : ec ≠ none
    · rw [if_pos hec]
      refine .finish hreturned hcall.total hcall.lt.le (fun h => absurd h hec)
        (fun h => absurd h hec) hrest hsplit
    rw [if_neg hec]
    by_cases hbytes : bytes = []
    · -- a message is not empty
      exact absurd hbytes (hfirst.1 (not_not.mp hec))
    rw [if_neg hbytes]
    obtain ⟨hcbytes, hgot, hcremain, htotal, hreadSome, hreads, -⟩ :=
      consume_spec (r := r.deliver bytes) hcall
    generalize (r.deliver bytes).consume call = c at *
    have hlt := hcall.lt
    have hpos := List.length_pos_iff.mpr hbytes
    change c.2.bytes ++ c.1.remain = call.bytes ++ bytes at hcbytes
    change c.2.got = call.got + min (call.total - call.got) bytes.length at hgot
    change c.1.remain.length = bytes.length - min (call.total - call.got) bytes.length at hcremain
    change c.1.reads = r.reads at hreads
    have hinput' : c.1.reads.flatMap ReadResult.bytes ++ c.2.bytes ++ c.1.remain ++
        resultBytes results = input := by
      rw [hreads, ← hsplit, List.append_assoc _ c.2.bytes, hcbytes, ← List.append_assoc]
    by_cases hdone : c.2.readSome ∨ c.2.total ≤ c.2.got
    · rw [if_pos hdone]
      refine .finish (hreads ▸ hreturned) htotal.1 (by omega) (fun _ hsome => ?_)
        (fun _ _ _ => by omega) hrest hinput'
      rcases hdone with hdone | hdone
      · rw [hsome] at hdone
        cases hdone
      · omega
    · rw [if_neg hdone]
      have hnil : c.1.remain = [] := by
        rw [← List.length_eq_zero_iff]
        omega
      rw [hnil, List.append_nil] at hinput'
      exact ih ⟨htotal.1, by omega⟩ hnil (hreads ▸ hreturned) hrest hinput'

variable {r : Receiver} {input : Bytes}

theorem ReceiverInvariant.read (hr : ReceiverInvariant r input) (hidle : r.reader = none)
    (buffers : List Bytes) (readSome : Bool) :
    ReceiverInvariant (r.read buffers readSome) input := by
  have hconserve := hr.conserve
  have hreading : r.reading = [] := by rw [Receiver.reading, hidle]
  rw [hreading, List.append_nil] at hconserve
  rw [Receiver.read]
  dsimp only
  by_cases hzero : buffers.flatten.length = 0
  · rw [if_pos hzero]
    refine .finish hr.returned rfl (Nat.zero_le _) (fun _ _ => hzero.symm)
      (fun _ _ hne => absurd hzero hne) hr.results ?_
    rw [← hconserve]
    change r.reads.flatMap ReadResult.bytes ++ buffers.flatten.take 0 ++ _ ++ _ = _
    rw [List.take_zero, List.append_nil]
  rw [if_neg hzero]
  have hcall : ReadCall.Waiting { buffers, total := buffers.flatten.length, readSome } :=
    ⟨rfl, Nat.pos_of_ne_zero hzero⟩
  have hfresh : ReadCall.bytes { buffers, total := buffers.flatten.length, readSome } = [] :=
    List.take_zero
  by_cases hremain : r.remain = []
  · rw [if_pos hremain]
    refine .readOn hcall hremain hr.returned hr.results ?_
    rw [← hconserve, hfresh, hremain, List.append_nil]
  rw [if_neg hremain]
  obtain ⟨hcbytes, hgot, hcremain, htotal, hsome, hreads, -⟩ := consume_spec (r := r) hcall
  generalize r.consume { buffers, total := buffers.flatten.length, readSome } = c at *
  have hpos := List.length_pos_iff.mpr hremain
  rw [hfresh, List.nil_append] at hcbytes
  dsimp only at hgot hcremain htotal
  have hinput : c.1.reads.flatMap ReadResult.bytes ++ c.2.bytes ++ c.1.remain ++
      resultBytes r.recvResults = input := by
    rw [hreads, ← hconserve, List.append_assoc _ c.2.bytes, hcbytes]
  by_cases hdone : c.2.readSome ∧ c.2.got ≠ 0 ∨ c.2.total ≤ c.2.got
  · rw [if_pos hdone]
    refine .finish (hreads ▸ hr.returned) htotal.1 (by omega) (fun _ hsome => ?_)
      (fun _ _ _ => by omega) hr.results hinput
    rcases hdone with ⟨hdone, -⟩ | hdone
    · rw [hsome] at hdone
      cases hdone
    · omega
  · rw [if_neg hdone]
    have hlt : c.2.got < c.2.total := by
      by_contra hge
      exact hdone (.inr (not_lt.mp hge))
    have hnil : c.1.remain = [] := by
      rw [← List.length_eq_zero_iff]
      omega
    rw [hnil, List.append_nil] at hinput
    exact .readOn ⟨htotal.1, hlt⟩ hnil (hreads ▸ hr.returned) hr.results hinput

/-- A message comes in, or a receive fails. -/
theorem ReceiverInvariant.onRecvComplete (hr : ReceiverInvariant r input) {ec : Option Errc}
    {bytes : Bytes} (hok : (ec = none → bytes ≠ []) ∧ (ec ≠ none → bytes = [])) :
    ReceiverInvariant (r.onRecvComplete ec bytes) (input ++ bytes) := by
  have hconserve := hr.conserve
  unfold Receiver.onRecvComplete
  dsimp only
  split
  · rename_i call hreader
    obtain ⟨hcall, hremain, hnone⟩ := hr.waiting call hreader
    have hreading : r.reading = call.bytes := by
      rw [Receiver.reading, hreader]
      rfl
    have hempty : resultBytes r.recvResults = [] := by
      rw [hnone]
      rfl
    rw [hreading, hremain, hempty, List.append_nil, List.append_nil] at hconserve
    refine .readOn hcall hremain hr.returned ?_ ?_
    · rw [hnone]
      intro p hp
      obtain rfl := List.mem_singleton.mp hp
      exact hok
    · change r.reads.flatMap ReadResult.bytes ++ call.bytes ++
        resultBytes ((ec, bytes) :: r.recvResults) = input ++ bytes
      rw [hconserve, hnone]
      exact congrArg _ (List.append_nil bytes)
  · rename_i hreader
    refine ⟨?_, ?_, fun call hcall => ?_, hr.returned⟩
    · change r.reads.flatMap ReadResult.bytes ++ r.reading ++ r.remain ++
        resultBytes (r.recvResults ++ [(ec, bytes)]) = input ++ bytes
      rw [← hconserve, resultBytes, List.flatMap_append, ← List.append_assoc,
        List.flatMap_singleton]
      rfl
    · intro p hp
      rcases List.mem_append.mp hp with hp | hp
      · exact hr.results p hp
      · obtain rfl := List.mem_singleton.mp hp
        exact hok
    · rw [show r.reader = some call from hcall] at hreader
      cases hreader

theorem ReceiverInvariant.close (hr : ReceiverInvariant r input) :
    ReceiverInvariant r.close input := by
  unfold Receiver.close
  split
  · exact hr
  · dsimp only
    split
    · rename_i call hreader
      obtain ⟨hcall, hremain, hnone⟩ := hr.waiting call hreader
      refine .finish hr.returned hcall.total hcall.lt.le nofun nofun hr.results ?_
      rw [← hr.conserve, Receiver.reading, hreader]
      rfl
    · exact ⟨hr.conserve, hr.results, hr.waiting, hr.returned⟩

theorem ReceiverInvariant.armRecvBuffers (hr : ReceiverInvariant r input) :
    ReceiverInvariant (r.armRecvBuffers cfg) input := by
  unfold Receiver.armRecvBuffers
  split
  · split <;> exact ⟨hr.conserve, hr.results, hr.waiting, hr.returned⟩
  · exact ⟨hr.conserve, hr.results, hr.waiting, hr.returned⟩

theorem close_hasClose : r.close.hasClose = true := by
  unfold Receiver.close
  split
  · assumption
  · dsimp only
    split <;> rfl

/-! ### Waiting -/

/-- A receive is posted, unless the socket is closed, a receive has failed, or they are being
posted. -/
def Receiver.Posted (r : Receiver) : Prop :=
  r.hasClose = false → r.recvFailed = false → r.arming = false → 0 < r.outstandingRecv

theorem consume_flags (call : ReadCall) :
    (r.consume call).1.hasClose = r.hasClose ∧ (r.consume call).1.recvFailed = r.recvFailed ∧
      (r.consume call).1.arming = r.arming ∧
      (r.consume call).1.outstandingRecv = r.outstandingRecv := by
  rw [Receiver.consume]
  dsimp only
  split <;> exact ⟨rfl, rfl, rfl, rfl⟩

theorem readOn_flags (call : ReadCall) (results : List (Option Errc × Bytes)) :
    (r.readOn call results).hasClose = r.hasClose ∧
      (r.readOn call results).recvFailed = r.recvFailed ∧
      (r.readOn call results).arming = r.arming ∧
      (r.readOn call results).outstandingRecv = r.outstandingRecv := by
  induction results generalizing r call with
  | nil =>
    rw [Receiver.readOn]
    split <;> exact ⟨rfl, rfl, rfl, rfl⟩
  | cons p results ih =>
    obtain ⟨ec, bytes⟩ := p
    obtain ⟨hclose, hfailed, harming, hout⟩ := consume_flags (r := r.deliver bytes) call
    rw [Receiver.readOn]
    dsimp only
    split
    · exact ⟨rfl, rfl, rfl, rfl⟩
    split
    · exact ⟨rfl, rfl, rfl, rfl⟩
    split
    · exact ⟨hclose, hfailed, harming, hout⟩
    · obtain ⟨hclose', hfailed', harming', hout'⟩ :=
        ih (r := ((r.deliver bytes).consume call).1) ((r.deliver bytes).consume call).2
      exact ⟨hclose'.trans hclose, hfailed'.trans hfailed, harming'.trans harming,
        hout'.trans hout⟩

theorem Receiver.Posted.of_eq {r' : Receiver} (hr : r.Posted) (hclose : r'.hasClose = r.hasClose)
    (hfailed : r'.recvFailed = r.recvFailed) (harming : r'.arming = r.arming)
    (hout : r'.outstandingRecv = r.outstandingRecv) : r'.Posted := by
  rw [Receiver.Posted, hclose, hfailed, harming, hout]
  exact hr

theorem Receiver.Posted.read (hr : r.Posted) (buffers : List Bytes) (readSome : Bool) :
    (r.read buffers readSome).Posted := by
  have hreadOn : ∀ (r' : Receiver) (call : ReadCall), r'.Posted →
      (r'.readOn call r.recvResults).Posted := by
    intro r' call hr'
    obtain ⟨hclose, hfailed, harming, hout⟩ := readOn_flags (r := r') call r.recvResults
    exact hr'.of_eq hclose hfailed harming hout
  have hconsume : ∀ call : ReadCall, (r.consume call).1.Posted := by
    intro call
    obtain ⟨hclose, hfailed, harming, hout⟩ := consume_flags (r := r) call
    exact hr.of_eq hclose hfailed harming hout
  rw [Receiver.read]
  dsimp only
  split
  · exact hr
  split
  · exact hreadOn r _ hr
  split
  · exact hconsume _
  · exact hreadOn _ _ (hconsume _)

/-- A completion leads to `arm_recv_buffers`, unless it has failed or the socket is closed. -/
theorem onRecvComplete_flags (ec : Option Errc) (bytes : Bytes) :
    (r.onRecvComplete ec bytes).hasClose = r.hasClose ∧
      (r.onRecvComplete ec bytes).arming = decide (ec = none ∧ r.hasClose = false) := by
  unfold Receiver.onRecvComplete
  dsimp only
  split
  · rename_i call hreader
    obtain ⟨hclose, -, harming, -⟩ := readOn_flags (r := { r with
      reader := none
      outstandingRecv := r.outstandingRecv - 1
      arming := ec = none ∧ r.hasClose = false }) call ((ec, bytes) :: r.recvResults)
    exact ⟨hclose, harming⟩
  · exact ⟨rfl, rfl⟩

theorem posted_onRecvComplete (bytes : Bytes) : (r.onRecvComplete none bytes).Posted := by
  obtain ⟨hclose, harming⟩ := onRecvComplete_flags (r := r) none bytes
  intro hopen _ hidle
  rw [hclose] at hopen
  rw [harming, decide_eq_false_iff_not] at hidle
  exact absurd ⟨rfl, hopen⟩ hidle

/-- `arm_recv_buffers` ends its loop with a receive posted, where the pool has a buffer for the
first one. -/
theorem posted_armRecvBuffers {s : State} (hsupplied : Supplied cfg s .arm) :
    (s.receiver.armRecvBuffers cfg).Posted := by
  have hpos := cfg.recvBufferCnt_pos
  unfold Receiver.armRecvBuffers
  split
  · rename_i hmore
    split
    · exact fun _ _ _ => Nat.succ_pos _
    · rename_i hpool
      -- out of memory, so this is not the first round
      intro _ _ _
      refine Nat.pos_of_ne_zero fun hnone => ?_
      exact hsupplied hmore.1 hnone hpool
  · rename_i hfull
    intro hopen _ _
    have hcount : ¬ s.receiver.outstandingRecv < cfg.recvBufferCnt := fun hlt => hfull ⟨hopen, hlt⟩
    exact hpos.trans_le (not_lt.mp hcount)

/-! ### Whole runs -/

/-- What holds of the two ends and of the messages between them. -/
structure Invariant (cfg : Config) (s : State) : Prop where
  sender : SenderInvariant cfg s.sender
  /-- the messages that were received, and those that are on the way -/
  order : ∃ arrived, s.sender.messages = arrived ++ s.transit ∧
    ReceiverInvariant s.receiver arrived.flatten
  posted : s.receiver.Posted

theorem invariant_init (pool : Pool) : Invariant cfg (system cfg pool).init where
  sender := ⟨nofun, rfl, nofun, nofun⟩
  order := ⟨[], rfl, rfl, nofun, nofun, nofun⟩
  posted := nofun

/-- The writing end goes on with a call. -/
theorem Invariant.write {s : State} (hs : Invariant cfg s) {call : WriteCall} (buffer : Bool)
    (status : ℕ)
    (hwritten : s.sender.messages.flatten = s.sender.writes.flatMap WriteResult.bytes ++
      call.buffers.flatten.take call.sentTotal)
    (hle : call.sentTotal ≤ call.buffers.flatten.length) :
    Invariant cfg (s.write cfg call buffer status) := by
  obtain ⟨arrived, hmessages, hreceiver⟩ := hs.order
  obtain ⟨hsender, hsent⟩ := SenderInvariant.writeOn buffer status hs.sender.message
    hwritten hs.sender.wrote hle
  refine ⟨hsender, ⟨arrived, ?_, hreceiver⟩, hs.posted⟩
  rw [hmessages, List.append_assoc] at hsent
  exact hsent

/-- Every step keeps it, where the pool has a buffer for the first receive. -/
theorem Invariant.step {s s' : State} {e : Event} (hs : Invariant cfg s)
    (hsupplied : Supplied cfg s e) (h : step cfg s e = some s') : Invariant cfg s' := by
  obtain ⟨arrived, hmessages, hreceiver⟩ := hs.order
  cases e with
  | write buffers buffer status =>
    simp only [Nd.step] at h
    split at h
    · rename_i hidle
      cases h
      refine hs.write buffer status ?_ (Nat.zero_le _)
      have hwritten := hs.sender.written
      rw [Sender.writing, hidle] at hwritten
      exact hwritten
    · cases h
  | sent buffer status =>
    simp only [Nd.step] at h
    split at h
    · rename_i call hwriter
      cases h
      have hlt := hs.sender.sending call hwriter
      refine hs.write buffer status ?_ ?_
      · have hwritten := hs.sender.written
        rw [Sender.writing, hwriter] at hwritten
        exact hwritten
      · dsimp only
        rw [WriteCall.nextSize]
        omega
    · cases h
  | closeSender =>
    cases h
    exact ⟨⟨hs.sender.message, hs.sender.written, hs.sender.wrote, hs.sender.sending⟩, hs.order,
      hs.posted⟩
  | read buffers readSome =>
    simp only [Nd.step] at h
    split at h
    · rename_i hidle
      cases h
      exact ⟨hs.sender, ⟨arrived, hmessages, hreceiver.read hidle buffers readSome⟩,
        hs.posted.read buffers readSome⟩
    · cases h
  | received =>
    simp only [Nd.step] at h
    split at h
    · rename_i message rest htransit
      split at h
      · cases h
        rw [htransit] at hmessages
        have hne : message ≠ [] := by
          refine (hs.sender.message message ?_).1
          rw [hmessages]
          exact List.mem_append_right _ List.mem_cons_self
        refine ⟨hs.sender, ⟨arrived ++ [message], ?_, ?_⟩, posted_onRecvComplete message⟩
        · rw [List.append_assoc]
          exact hmessages
        · rw [List.flatten_append, List.flatten_singleton]
          exact hreceiver.onRecvComplete ⟨fun _ => hne, fun h => absurd rfl h⟩
      · cases h
    · cases h
  | recvFails status =>
    simp only [Nd.step] at h
    split at h
    · cases h
      have hafter : ReceiverInvariant (s.receiver.onRecvComplete (some (.status status)) [])
          (arrived.flatten ++ []) := hreceiver.onRecvComplete ⟨nofun, fun _ => rfl⟩
      rw [List.append_nil] at hafter
      exact ⟨hs.sender, ⟨arrived, hmessages, hafter.conserve, hafter.results, hafter.waiting,
        hafter.returned⟩, fun _ hok => nomatch hok⟩
    · cases h
  | arm =>
    simp only [Nd.step] at h
    split at h
    · cases h
      refine ⟨hs.sender, ⟨arrived, hmessages, hreceiver.armRecvBuffers⟩,
        posted_armRecvBuffers hsupplied⟩
    · cases h
  | close =>
    cases h
    exact ⟨hs.sender, ⟨arrived, hmessages, hreceiver.close⟩, fun hopen => nomatch
      hopen.symm.trans close_hasClose⟩
  | poolChanges pool =>
    cases h
    exact ⟨hs.sender, ⟨arrived, hmessages, hreceiver.conserve, hreceiver.results,
      hreceiver.waiting, hreceiver.returned⟩, hs.posted⟩

theorem Invariant.streams {s : State} (hs : Invariant cfg s) : Streams cfg s where
  message := hs.sender.message
  written := hs.sender.written
  wrote := hs.sender.wrote
  read := by
    obtain ⟨arrived, hmessages, hreceiver⟩ := hs.order
    rw [hmessages, List.flatten_append, ← hreceiver.conserve]
    -- the rest of the current message, the results, and what is on the way
    simp only [List.append_assoc]
    exact List.prefix_append_right_inj _ |>.mpr (List.prefix_append _ _)
  returned := by
    obtain ⟨_, -, hreceiver⟩ := hs.order
    exact hreceiver.returned
  waits hopen hok hidle _ := .inl (hs.posted hopen hok hidle)

/-- The bytes come through in their order, and no call waits with nothing posted, in runs where the
pool has a buffer for the first receive whenever none is posted. -/
theorem streams_of_reaches {pool : Pool} {s : State}
    (h : (system cfg pool).Reaches (Supplied cfg) s) : Streams cfg s := by
  have hinvariant : Invariant cfg s :=
    h.invariant (invariant_init pool) fun s e s' hs hsupplied hstep => hs.step hsupplied hstep
  exact hinvariant.streams

instance (cfg : Config) (s : State) (e : Event) : Decidable (Supplied cfg s e) := by
  unfold Supplied
  split <;> infer_instance

/-- Two receives are to be posted, and there is memory for one buffer. -/
def smallConfig : Config := ⟨4, 2, 4, 4, by decide, by decide⟩

/-- A call waits while its bytes are sent in two messages, and one waits after it. -/
def suppliedRun : List Event :=
  [.arm, .arm, .read [[0], [0, 0, 0, 0]] false, .write [[1, 2, 3], [4, 5]] true 0, .received, .arm,
    .arm, .sent true 0, .received, .arm, .arm, .sent true 0, .read [[0]] true]

theorem streams_suppliedRun : ∃ s, (system smallConfig ⟨0, 0, true⟩).runIf (Supplied smallConfig)
    (system smallConfig ⟨0, 0, true⟩).init suppliedRun = some s ∧
      s.receiver.reads.flatMap ReadResult.bytes = [1, 2, 3, 4, 5] ∧ Streams smallConfig s := by
  refine ⟨((system smallConfig ⟨0, 0, true⟩).runIf (Supplied smallConfig)
    (system smallConfig ⟨0, 0, true⟩).init suppliedRun).getD
      (system smallConfig ⟨0, 0, true⟩).init, rfl, by decide, ?_⟩
  have hrun : (system smallConfig ⟨0, 0, true⟩).runIf (Supplied smallConfig)
      (system smallConfig ⟨0, 0, true⟩).init suppliedRun =
        some (((system smallConfig ⟨0, 0, true⟩).runIf (Supplied smallConfig)
          (system smallConfig ⟨0, 0, true⟩).init suppliedRun).getD
            (system smallConfig ⟨0, 0, true⟩).init) := rfl
  exact streams_of_reaches (reaches_of_runIf .init hrun)

/-- A message has the only buffer when receives are posted again. It is read, which gives the buffer
back, and a call waits for the next message. -/
def starvedRun : List Event :=
  [.arm, .arm, .write [[1, 2]] true 0, .received, .arm, .read [[0, 0]] false, .read [[0, 0]] false]

/-- Nothing is posted then, though the pool has a buffer. -/
theorem not_streams : ¬ ∀ (cfg : Config) (pool : Pool) (s : State),
    (system cfg pool).Reachable s → Streams cfg s := by
  intro h
  have hrun : (system smallConfig ⟨0, 0, true⟩).runIf (fun _ _ => True)
      (system smallConfig ⟨0, 0, true⟩).init starvedRun =
        some (((system smallConfig ⟨0, 0, true⟩).runIf (fun _ _ => True)
          (system smallConfig ⟨0, 0, true⟩).init starvedRun).getD
            (system smallConfig ⟨0, 0, true⟩).init) := rfl
  have hwaits := (h smallConfig _ _ (reaches_of_runIf .init hrun)).waits rfl rfl rfl
    (by rintro ⟨⟩)
  exact absurd hwaits (by decide)

end Yalantinglibs.CoroIo.Nd
