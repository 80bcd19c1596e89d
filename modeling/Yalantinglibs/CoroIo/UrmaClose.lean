import Mathlib.Tactic.Abel
import Yalantinglibs.Data.Numbering
import Yalantinglibs.Data.TransitionSystem

/-!
# Closing an URMA socket

The shared state of `coro_io/urma/urma_socket.hpp`: sends and receives are posted by coroutines and
completed by the watcher, which polls completions, all on one executor. A step is what happens
between two calls of callbacks, since a coroutine that a callback resumes may post, receive and
close.

Registered buffers come from a pool. Each time a buffer is taken from the pool it has a new number
here, and it is to be given back once under that number. A received buffer is in `recv_buffer_`,
which is read by a coroutine that gives it back, or hands it on with a view. To move a buffer is to
copy it: `recv_buffer_` refers to the buffer afterwards, too, also where the pool has given it to
someone else.

## Main definitions

* `State`, `Event`, `step` — the shared state, and what may happen to it
* `Completes` — what is to hold of callbacks and buffers
* `Orderly` — when it does

## Main results

* `completes_of_reaches` — it does in runs of orderly steps
-/

set_option autoImplicit false

namespace Yalantinglibs.CoroIo.UrmaClose

open Yalantinglibs.Numbering TransitionSystem

/-! ### The model -/

inductive Errc
  | ioError
  | protocolError
  | noBufferSpace
  | connectionReset
  | operationCanceled
  | notConnected
  /-- what posting has returned -/
  | status (n : ℕ)
  deriving DecidableEq

/-- What a callback is called with. -/
abbrev Result := Option Errc × ℕ

/-- `pending_send`. -/
structure Send where
  id : ℕ
  buffer : Option ℕ
  length : ℕ

/-- Where the watcher stands. -/
inductive Phase
  /-- it is not in `poll_completion` -/
  | idle
  | polling
  /-- `fail_pending` is called behind a failed poll, and comes to the receive callback -/
  | failRecv (ec : Errc)
  /-- it goes through the send callbacks -/
  | failSends (ec : Errc)
  /-- the state is destroyed -/
  | released
  deriving DecidableEq

structure Config where
  recvBufferCnt : ℕ
  sendBufferCnt : ℕ
  cqSize : ℕ
  sendWindow : ℕ

structure State where
  sendCallbacks : List Send := []
  recvCallback : Option ℕ := none
  /-- the buffers that are posted to be received into -/
  recvQueue : List ℕ := []
  /-- `recv_result_` -/
  recvResult : List (ℕ × Result) := []
  recvBuffer : Option ℕ := none
  /-- the buffer in `recv_buffer_` was neither given back nor handed on -/
  recvOwned : Bool := false
  /-- a coroutine waits in `wait_for_send_slot` -/
  writePromise : Bool := false
  hasClose : Bool := false
  peerClose : Bool := false
  phase : Phase := .idle
  /-- the buffers of views -/
  views : List ℕ := []
  /-- the numbers of sends, of receives, and of buffers taken from the pool -/
  sends : ℕ := 0
  receives : ℕ := 0
  taken : ℕ := 0
  /-- the calls of callbacks, and of `return_buffer` -/
  sendResults : List (ℕ × Result) := []
  recvResults : List (ℕ × Result) := []
  returned : List ℕ := []

inductive Event
  /-- `post_send`, of a buffer taken from the pool or of none, and what posting it returns -/
  | send (buffer : Bool) (length status : ℕ)
  /-- `async_receive` -/
  | receive
  /-- `wait_for_send_slot` -/
  | waitSlot
  /-- the received buffer is given back when its bytes are used up -/
  | consumed
  /-- a view takes the received buffer, or is dropped -/
  | detach
  | dropView (b : ℕ)
  /-- `fill_recv_queue` posts buffers, and may fail to post one more -/
  | fill (n : ℕ) (failed : Bool)
  | pollBegin
  /-- a completion of a send, and one of a receive with the refill behind it -/
  | sendDone (ec : Option Errc)
  | recvDone (ec : Option Errc) (length n : ℕ) (failed : Bool)
  /-- the completions cannot be polled -/
  | pollError
  | pollEnd
  /-- `fail_pending` goes on -/
  | failNext
  | close
  /-- `release_resources` of the destructor. The buffer in `recv_buffer_` may have been given back,
  and taken from the pool by someone else since. -/
  | release (retaken : Bool)

namespace State

variable (s : State)

def giveBack (b : Option ℕ) : State := { s with returned := s.returned ++ b.toList }

def resumeSend (id : ℕ) (r : Result) : State :=
  { s with sendResults := s.sendResults ++ [(id, r)] }

/-- The receive callback is moved away and called, if there is one. -/
def resumeRecv (r : Result) : State :=
  match s.recvCallback with
  | some id => { s with recvCallback := none, recvResults := s.recvResults ++ [(id, r)] }
  | none => s

def wakeWriter : State := { s with writePromise := false }

def fillRecvQueue (n : ℕ) (failed : Bool) : State :=
  { s with
    recvQueue := s.recvQueue ++ List.range' s.taken n
    taken := s.taken + n + failed.toNat
    returned := s.returned ++ if failed then [s.taken + n] else [] }

/-- `fail_pending`, where no callback can post any more. -/
def failPending (ec : Errc) : State :=
  { s.resumeRecv (some ec, 0) with
    sendCallbacks := []
    sendResults := s.sendResults ++ s.sendCallbacks.map fun p => (p.id, (some ec, 0))
    returned := s.returned ++ s.sendCallbacks.filterMap Send.buffer
    writePromise := false }

def closeNow : State :=
  if s.hasClose then s else { s with hasClose := true }.failPending .operationCanceled

/-- `post_send` on a connected socket. -/
def postSend (buffer : Bool) (length status : ℕ) : State :=
  let b := if buffer then some s.taken else none
  let s' := { s with sends := s.sends + 1, taken := s.taken + buffer.toNat }
  if s.hasClose then (s'.giveBack b).resumeSend s.sends (some .notConnected, 0)
  else if status ≠ 0 then (s'.giveBack b).resumeSend s.sends (some (.status status), 0)
  else { s' with sendCallbacks := s.sendCallbacks ++ [⟨s.sends, b, length⟩] }

def asyncReceive : State :=
  let s' := { s with receives := s.receives + 1 }
  match s.recvResult with
  | (b, r) :: rest =>
    { s' with
      recvResult := rest
      recvBuffer := some b
      recvOwned := true
      recvResults := s.recvResults ++ [(s.receives, r)] }
  | [] =>
    if s.hasClose then
      { s' with recvResults := s.recvResults ++ [(s.receives, (some .operationCanceled, 0))] }
    else { s' with recvCallback := some s.receives }

/-- A completion of a send, in `poll_completion`. -/
def sendDone (ec : Option Errc) : State :=
  match s.sendCallbacks with
  | [] => s
  | p :: rest =>
    (({ s with sendCallbacks := rest }.giveBack p.buffer).resumeSend p.id (ec, p.length)).wakeWriter

/-- A completion of a receive. -/
def recvDone (cqSize : ℕ) (ec : Option Errc) (length n : ℕ) (failed : Bool) : State :=
  match s.recvQueue with
  | [] => { s with phase := .failRecv .protocolError }
  | b :: rest =>
    if length = 0 then
      -- the peer has closed, and the buffer stays in the queue
      { s with peerClose := true, hasClose := true }.resumeRecv (some .connectionReset, 0)
    else
      let s' := { s with recvQueue := rest }.fillRecvQueue n failed
      match s.recvCallback with
      | some _ => { s' with recvBuffer := some b, recvOwned := true }.resumeRecv (ec, length)
      | none =>
        if s.recvResult.length = cqSize then
          { s'.giveBack (some b) with phase := .failRecv .noBufferSpace }
        else { s' with recvResult := s.recvResult ++ [(b, (ec, length))] }

/-- `fail_pending` behind a failed poll, and `close` behind that. -/
def failNext : Option State :=
  match s.phase with
  | .failRecv ec => some { s.resumeRecv (some ec, 0) with phase := .failSends ec }
  | .failSends ec =>
    match s.sendCallbacks with
    | p :: rest =>
      some (({ s with sendCallbacks := rest }.giveBack p.buffer).resumeSend p.id (some ec, 0))
    | [] => some { s.wakeWriter.closeNow with phase := .idle }
  | _ => none

def releaseResources (retaken : Bool) : State :=
  let s' := s.closeNow
  -- the pool warns of a buffer that it has already, and does not take it back
  let last := if s'.recvOwned || retaken then s'.recvBuffer.toList else []
  { s' with
    returned := s'.returned ++ last ++ s'.recvResult.map Prod.fst ++ s'.recvQueue
    recvBuffer := none
    recvOwned := false
    recvResult := []
    recvQueue := []
    phase := .released }

end State

/-- What may happen to the state. -/
def step (cfg : Config) (s : State) : Event → Option State
  | .dropView b =>
    if b ∈ s.views then
      some { s with views := s.views.erase b, returned := s.returned ++ [b] }
    else none
  | event =>
    if s.phase = .released then none
    else match event with
    | .send buffer length status =>
      -- no more are posted than the transport has room for
      if status = 0 ∧ cfg.sendBufferCnt + 2 ≤ s.sendCallbacks.length then none
      else some (s.postSend buffer length status)
    | .receive => some s.asyncReceive
    | .waitSlot =>
      if s.sendCallbacks.length < max cfg.sendWindow 1 then some s
      else some { s with writePromise := true }
    | .consumed =>
      if s.recvOwned then some { s.giveBack s.recvBuffer with recvOwned := false } else none
    | .detach =>
      if s.recvOwned then
        some { s with views := s.views ++ s.recvBuffer.toList, recvOwned := false }
      else none
    | .dropView _ => none
    | .fill n failed =>
      if s.recvQueue.length + n ≤ cfg.recvBufferCnt then some (s.fillRecvQueue n failed) else none
    | .pollBegin =>
      if s.phase = .idle ∧ s.hasClose = false then some { s with phase := .polling } else none
    | .sendDone ec => if s.phase = .polling then some (s.sendDone ec) else none
    | .recvDone ec length n failed =>
      if s.phase = .polling ∧ s.recvQueue.length - 1 + n ≤ cfg.recvBufferCnt then
        some (s.recvDone cfg.cqSize ec length n failed)
      else none
    | .pollError => if s.phase = .polling then some { s with phase := .failRecv .ioError } else none
    | .pollEnd => if s.phase = .polling then some { s with phase := .idle } else none
    | .failNext => s.failNext
    | .close => some s.closeNow
    | .release retaken => if s.phase = .idle then some (s.releaseResources retaken) else none

def system (cfg : Config) : TransitionSystem State Event := ⟨{}, step cfg⟩

/-! ### What is to hold -/

/-- The callback of each send and of each receive was called once, or is pending; none is pending
once the socket is closed and the watcher has gone on; and each buffer that was taken from the pool
is given back once at the end, or belongs to a view, which gives it back. -/
structure Completes (s : State) : Prop where
  sends : ∀ id < s.sends,
    (s.sendResults.map Prod.fst).count id + (s.sendCallbacks.map Send.id).count id = 1
  receives : ∀ id < s.receives,
    (s.recvResults.map Prod.fst).count id + s.recvCallback.toList.count id = 1
  closed : s.hasClose → s.phase = .idle ∨ s.phase = .released →
    s.sendCallbacks = [] ∧ s.recvCallback = none ∧ s.writePromise = false
  buffers : s.phase = .released → ∀ b < s.taken, s.returned.count b + s.views.count b = 1

/-- No receive is posted while another one waits; where the socket is closed when completions have
been polled, no send is pending; no buffer is received while the last one is neither given back nor
handed on; and no one else has the last one at the end. -/
def Orderly (s : State) : Event → Prop
  | .receive => s.recvCallback = none ∧ (s.recvResult ≠ [] → s.recvOwned = false)
  | .recvDone _ length _ _ => length ≠ 0 → s.recvCallback ≠ none → s.recvOwned = false
  | .pollEnd => s.hasClose → s.sendCallbacks = []
  | .release retaken => retaken → s.recvBuffer ≠ none → s.recvOwned
  | _ => True

/-! ### Accounts -/

variable {cfg : Config} {s s' : State}

/-- The received buffer, if it is to be given back. -/
def State.ownedBuffer (s : State) : List ℕ := if s.recvOwned then s.recvBuffer.toList else []

/-- Where the sends, the receives and the buffers are. -/
structure Accounts (s : State) : Prop where
  sends : (s.sendResults.map Prod.fst : Multiset ℕ) + s.sendCallbacks.map Send.id =
    Multiset.range s.sends
  receives : (s.recvResults.map Prod.fst : Multiset ℕ) + s.recvCallback.toList =
    Multiset.range s.receives
  buffers : (s.returned : Multiset ℕ) + s.sendCallbacks.filterMap Send.buffer + s.recvQueue +
    s.recvResult.map Prod.fst + s.ownedBuffer + s.views = Multiset.range s.taken

theorem accounts_init : Accounts {} where
  sends := rfl
  receives := rfl
  buffers := rfl

theorem Accounts.resumeRecv (hs : Accounts s) (r : Result) : Accounts (s.resumeRecv r) := by
  unfold State.resumeRecv
  split
  · rename_i id hid
    refine ⟨hs.sends, ?_, hs.buffers⟩
    rw [← hs.receives, hid, List.map_append, ← Multiset.coe_add]
    simp
  · exact hs

theorem Accounts.fillRecvQueue (hs : Accounts s) (n : ℕ) (failed : Bool) :
    Accounts (s.fillRecvQueue n failed) := by
  refine ⟨hs.sends, hs.receives, ?_⟩
  change (↑(s.returned ++ if failed then [s.taken + n] else []) : Multiset ℕ) +
    s.sendCallbacks.filterMap Send.buffer + ↑(s.recvQueue ++ List.range' s.taken n) +
    s.recvResult.map Prod.fst + s.ownedBuffer + s.views =
      Multiset.range (s.taken + n + failed.toNat)
  rw [← range_toNat, ← range_add_range', ← hs.buffers, ← Multiset.coe_add, ← Multiset.coe_add]
  abel

theorem Accounts.postSend (hs : Accounts s) (buffer : Bool) (length status : ℕ) :
    Accounts (s.postSend buffer length status) := by
  have hsends := hs.sends
  have hbuffers := hs.buffers
  have htoList : (if buffer then some s.taken else none : Option ℕ).toList =
      if buffer then [s.taken] else [] := by
    cases buffer <;> rfl
  have hfailed : ∀ r : Result, Accounts
      (({ s with sends := s.sends + 1, taken := s.taken + buffer.toNat }.giveBack
        (if buffer then some s.taken else none)).resumeSend s.sends r) := by
    intro r
    refine ⟨?_, hs.receives, ?_⟩
    · change (↑((s.sendResults ++ [(s.sends, r)]).map Prod.fst) : Multiset ℕ) +
        s.sendCallbacks.map Send.id = Multiset.range (s.sends + 1)
      rw [Multiset.range_succ, ← hsends, List.map_append, ← Multiset.coe_add, ←
        Multiset.singleton_add]
      simp only [List.map_cons, List.map_nil, Multiset.coe_singleton]
      abel
    · change (↑(s.returned ++ (if buffer then some s.taken else none : Option ℕ).toList) :
        Multiset ℕ) + s.sendCallbacks.filterMap Send.buffer + s.recvQueue +
        s.recvResult.map Prod.fst + s.ownedBuffer + s.views =
          Multiset.range (s.taken + buffer.toNat)
      rw [← range_toNat, ← hbuffers, htoList, ← Multiset.coe_add]
      abel
  unfold State.postSend
  dsimp only
  split
  · exact hfailed _
  · split
    · exact hfailed _
    · refine ⟨?_, hs.receives, ?_⟩
      · change (s.sendResults.map Prod.fst : Multiset ℕ) +
          ↑((s.sendCallbacks ++
            [(⟨s.sends, if buffer then some s.taken else none, length⟩ : Send)]).map
            Send.id) = Multiset.range (s.sends + 1)
        rw [Multiset.range_succ, ← hsends, List.map_append, ← Multiset.coe_add, ←
          Multiset.singleton_add]
        simp only [List.map_cons, List.map_nil, Multiset.coe_singleton]
        abel
      · change (s.returned : Multiset ℕ) + ↑((s.sendCallbacks ++
          [(⟨s.sends, if buffer then some s.taken else none, length⟩ : Send)]).filterMap
            Send.buffer) +
          s.recvQueue + s.recvResult.map Prod.fst + s.ownedBuffer + s.views =
            Multiset.range (s.taken + buffer.toNat)
        have hlast : [(⟨s.sends, if buffer then some s.taken else none, length⟩ : Send)].filterMap
            Send.buffer = if buffer then [s.taken] else [] := by
          cases buffer <;> rfl
        rw [← range_toNat, ← hbuffers, List.filterMap_append, hlast, ← Multiset.coe_add]
        abel

theorem map_fst_map_send (l : List Send) (r : Result) :
    (l.map fun p => (p.id, r)).map Prod.fst = l.map Send.id := by
  rw [List.map_map]
  rfl

@[simp] theorem resumeRecv_sendCallbacks (s : State) (r : Result) :
    (s.resumeRecv r).sendCallbacks = s.sendCallbacks := by
  unfold State.resumeRecv
  split <;> rfl

/-- All that is pending is failed. -/
theorem Accounts.failPending (hs : Accounts s) (ec : Errc) : Accounts (s.failPending ec) := by
  have hr := hs.resumeRecv (some ec, 0)
  refine ⟨?_, hr.receives, ?_⟩
  · have hsends : (s.sendResults.map Prod.fst : Multiset ℕ) + s.sendCallbacks.map Send.id =
        Multiset.range (s.failPending ec).sends := by
      rw [hs.sends]
      unfold State.failPending State.resumeRecv
      split <;> rfl
    rw [← hsends]
    change (↑((s.sendResults ++ s.sendCallbacks.map fun p : Send =>
      ((p.id, (some ec, 0)) : ℕ × Result)).map Prod.fst) : Multiset ℕ) +
        ↑(([] : List Send).map Send.id) = _
    rw [List.map_append, map_fst_map_send, ← Multiset.coe_add, List.map_nil, Multiset.coe_nil,
      add_zero]
  · have hbuffers : (s.returned : Multiset ℕ) + s.sendCallbacks.filterMap Send.buffer +
        s.recvQueue + s.recvResult.map Prod.fst + s.ownedBuffer + s.views =
        Multiset.range (s.failPending ec).taken := by
      rw [hs.buffers]
      unfold State.failPending State.resumeRecv
      split <;> rfl
    have hrest : (s.failPending ec).recvQueue = s.recvQueue ∧
        (s.failPending ec).recvResult = s.recvResult ∧
        (s.failPending ec).ownedBuffer = s.ownedBuffer ∧ (s.failPending ec).views = s.views := by
      unfold State.failPending State.resumeRecv
      split <;> exact ⟨rfl, rfl, rfl, rfl⟩
    rw [← hbuffers, hrest.1, hrest.2.1, hrest.2.2.1, hrest.2.2.2]
    change (↑(s.returned ++ s.sendCallbacks.filterMap Send.buffer) : Multiset ℕ) +
      ↑(([] : List Send).filterMap Send.buffer) + s.recvQueue + s.recvResult.map Prod.fst +
      s.ownedBuffer + s.views = _
    rw [← Multiset.coe_add, List.filterMap_nil, Multiset.coe_nil, add_zero]

theorem Accounts.closeNow (hs : Accounts s) : Accounts s.closeNow := by
  unfold State.closeNow
  split
  · exact hs
  · have hclosed : Accounts { s with hasClose := true } := ⟨hs.sends, hs.receives, hs.buffers⟩
    exact hclosed.failPending _

/-- A receive takes a result, or waits where no other one does. -/
theorem Accounts.asyncReceive (hs : Accounts s) (hnone : s.recvCallback = none)
    (howned : s.recvResult ≠ [] → s.recvOwned = false) : Accounts s.asyncReceive := by
  have hreceives := hs.receives
  rw [hnone, Option.toList_none, Multiset.coe_nil, add_zero] at hreceives
  have hresumed : ∀ r : Result, ((s.recvResults ++ [(s.receives, r)]).map Prod.fst : Multiset ℕ) +
      s.recvCallback.toList = Multiset.range (s.receives + 1) := by
    intro r
    rw [hnone, Multiset.range_succ, ← hreceives, List.map_append, ← Multiset.coe_add, ←
      Multiset.singleton_add]
    simp only [List.map_cons, List.map_nil, Multiset.coe_singleton, Option.toList_none,
      Multiset.coe_nil]
    abel
  cases hresult : s.recvResult with
  | cons e rest =>
    obtain ⟨b, r⟩ := e
    have hstep : s.asyncReceive = { s with
        receives := s.receives + 1
        recvResult := rest
        recvBuffer := some b
        recvOwned := true
        recvResults := s.recvResults ++ [(s.receives, r)] } := by
      simp only [State.asyncReceive, hresult]
    rw [hstep]
    refine ⟨hs.sends, hresumed r, ?_⟩
    have hbuffers := hs.buffers
    rw [hresult, State.ownedBuffer, howned (by simp [hresult])] at hbuffers
    rw [← hbuffers]
    change (s.returned : Multiset ℕ) + s.sendCallbacks.filterMap Send.buffer + s.recvQueue +
      rest.map Prod.fst + ↑[b] + s.views = _
    simp only [List.map_cons, coe_cons, Bool.false_eq_true, if_false, Multiset.coe_nil]
    abel
  | nil =>
    by_cases hclose : s.hasClose
    · have hstep : s.asyncReceive = { s with
          receives := s.receives + 1
          recvResults := s.recvResults ++ [(s.receives, (some .operationCanceled, 0))] } := by
        simp only [State.asyncReceive, hresult, if_pos hclose]
      rw [hstep]
      exact ⟨hs.sends, hresumed _, hs.buffers⟩
    · have hstep : s.asyncReceive =
          { s with receives := s.receives + 1, recvCallback := some s.receives } := by
        simp only [State.asyncReceive, hresult, if_neg hclose]
      rw [hstep]
      refine ⟨hs.sends, ?_, hs.buffers⟩
      rw [Multiset.range_succ, ← hreceives, ← Multiset.singleton_add]
      simp only [Option.toList_some, Multiset.coe_singleton]
      abel

/-- The first of the pending sends is completed. -/
theorem Accounts.popSend (hs : Accounts s) {p : Send} {rest : List Send}
    (h : s.sendCallbacks = p :: rest) (r : Result) :
    Accounts (({ s with sendCallbacks := rest }.giveBack p.buffer).resumeSend p.id r) := by
  refine ⟨?_, hs.receives, ?_⟩
  · have hsends := hs.sends
    rw [h, List.map_cons, ← Multiset.cons_coe, ← Multiset.singleton_add] at hsends
    change (↑((s.sendResults ++ [(p.id, r)]).map Prod.fst) : Multiset ℕ) + rest.map Send.id =
      Multiset.range s.sends
    rw [← hsends, List.map_append, ← Multiset.coe_add]
    simp only [List.map_cons, List.map_nil, Multiset.coe_singleton]
    abel
  · have hbuffers := hs.buffers
    have hcons : (p :: rest).filterMap Send.buffer =
        p.buffer.toList ++ rest.filterMap Send.buffer := by
      cases hb : p.buffer <;> simp [hb]
    rw [h, hcons, ← Multiset.coe_add] at hbuffers
    change (↑(s.returned ++ p.buffer.toList) : Multiset ℕ) + rest.filterMap Send.buffer +
      s.recvQueue + s.recvResult.map Prod.fst + s.ownedBuffer + s.views = Multiset.range s.taken
    rw [← hbuffers, ← Multiset.coe_add]
    abel

theorem Accounts.sendDone (hs : Accounts s) (ec : Option Errc) : Accounts (s.sendDone ec) := by
  unfold State.sendDone
  split
  · exact hs
  · rename_i p rest h
    have := hs.popSend h (ec, p.length)
    exact ⟨this.sends, this.receives, this.buffers⟩

/-- The first of the buffers that are posted is taken out, and others are posted behind it. -/
theorem Accounts.popRecv (hs : Accounts s) {b : ℕ} {rest : List ℕ} (h : s.recvQueue = b :: rest)
    (n : ℕ) (failed : Bool) {queue : List ℕ} {result : List (ℕ × Result)} {owned : List ℕ}
    (hb : (queue : Multiset ℕ) + result.map Prod.fst + owned =
      {b} + ↑(s.recvResult.map Prod.fst) + ↑s.ownedBuffer) :
    (↑(({ s with recvQueue := rest }.fillRecvQueue n failed).returned ++ queue) : Multiset ℕ) +
      s.sendCallbacks.filterMap Send.buffer +
      ({ s with recvQueue := rest }.fillRecvQueue n failed).recvQueue +
      result.map Prod.fst + owned + s.views =
        Multiset.range ({ s with recvQueue := rest }.fillRecvQueue n failed).taken := by
  have hbuffers := (hs.fillRecvQueue n failed).buffers
  change (↑(s.returned ++ if failed then [s.taken + n] else []) : Multiset ℕ) +
    s.sendCallbacks.filterMap Send.buffer + ↑(s.recvQueue ++ List.range' s.taken n) +
    s.recvResult.map Prod.fst + s.ownedBuffer + s.views =
      Multiset.range (s.taken + n + failed.toNat) at hbuffers
  change (↑((s.returned ++ if failed then [s.taken + n] else []) ++ queue) : Multiset ℕ) +
    s.sendCallbacks.filterMap Send.buffer + ↑(rest ++ List.range' s.taken n) +
    result.map Prod.fst + owned + s.views = Multiset.range (s.taken + n + failed.toNat)
  rw [← hbuffers, h, List.cons_append, coe_cons, ← Multiset.coe_add _ queue]
  have hsplit : ∀ x y z : Multiset ℕ,
      x + queue + y + z + result.map Prod.fst + owned + s.views =
        x + y + z + s.views + ((queue : Multiset ℕ) + result.map Prod.fst + owned) := by
    intro x y z
    abel
  rw [hsplit, hb]
  abel

/-- A completed receive goes to the callback, or into the queue, or its buffer back to the pool. -/
theorem Accounts.recvDone (hs : Accounts s) (cqSize : ℕ) (ec : Option Errc) (length n : ℕ)
    (failed : Bool) (howned : length ≠ 0 → s.recvCallback ≠ none → s.recvOwned = false) :
    Accounts (s.recvDone cqSize ec length n failed) := by
  cases hqueue : s.recvQueue with
  | nil =>
    have hstep : s.recvDone cqSize ec length n failed =
        { s with phase := .failRecv .protocolError } := by simp only [State.recvDone, hqueue]
    rw [hstep]
    exact ⟨hs.sends, hs.receives, hs.buffers⟩
  | cons b rest =>
    by_cases hlength : length = 0
    · have hstep : s.recvDone cqSize ec length n failed =
          { s with peerClose := true, hasClose := true }.resumeRecv (some .connectionReset, 0) := by
        simp only [State.recvDone, hqueue, if_pos hlength]
      rw [hstep]
      have hclosed : Accounts { s with peerClose := true, hasClose := true } :=
        ⟨hs.sends, hs.receives, hs.buffers⟩
      exact hclosed.resumeRecv _
    · cases hcallback : s.recvCallback with
      | some id =>
        have hfree := howned hlength (by simp [hcallback])
        have hstep : s.recvDone cqSize ec length n failed =
            { { s with recvQueue := rest }.fillRecvQueue n failed with
              recvBuffer := some b, recvOwned := true }.resumeRecv (ec, length) := by
          simp only [State.recvDone, hqueue, if_neg hlength, hcallback]
        rw [hstep]
        have hmoved : Accounts { { s with recvQueue := rest }.fillRecvQueue n failed with
            recvBuffer := some b, recvOwned := true } := by
          refine ⟨hs.sends, hs.receives, ?_⟩
          have hb : (([] : List ℕ) : Multiset ℕ) + s.recvResult.map Prod.fst + ↑[b] =
              {b} + ↑(s.recvResult.map Prod.fst) + ↑s.ownedBuffer := by
            rw [State.ownedBuffer, hfree]
            simp only [Multiset.coe_nil, coe_cons, Bool.false_eq_true, if_false]
            abel
          have := hs.popRecv hqueue n failed hb
          rwa [List.append_nil] at this
        exact hmoved.resumeRecv _
      | none =>
        by_cases hfull : s.recvResult.length = cqSize
        · have hstep : s.recvDone cqSize ec length n failed =
              { ({ s with recvQueue := rest }.fillRecvQueue n failed).giveBack (some b) with
                phase := .failRecv .noBufferSpace } := by
            simp only [State.recvDone, hqueue, if_neg hlength, hcallback, if_pos hfull]
          rw [hstep]
          refine ⟨hs.sends, hs.receives, ?_⟩
          have hb : ((Option.toList (some b)) : Multiset ℕ) + s.recvResult.map Prod.fst +
              s.ownedBuffer = {b} + ↑(s.recvResult.map Prod.fst) + ↑s.ownedBuffer := rfl
          exact hs.popRecv hqueue n failed hb
        · have hstep : s.recvDone cqSize ec length n failed =
              { { s with recvQueue := rest }.fillRecvQueue n failed with
                recvResult := s.recvResult ++ [(b, (ec, length))] } := by
            simp only [State.recvDone, hqueue, if_neg hlength, hcallback, if_neg hfull]
          rw [hstep]
          refine ⟨hs.sends, hs.receives, ?_⟩
          have hb : (([] : List ℕ) : Multiset ℕ) +
              ↑((s.recvResult ++ [(b, (ec, length))]).map Prod.fst) + ↑s.ownedBuffer =
                {b} + ↑(s.recvResult.map Prod.fst) + ↑s.ownedBuffer := by
            rw [List.map_append, ← Multiset.coe_add]
            simp only [Multiset.coe_nil, List.map_cons, List.map_nil, coe_cons]
            abel
          have := hs.popRecv hqueue n failed hb
          rwa [List.append_nil] at this

theorem Accounts.failNext (hs : Accounts s) (h : s.failNext = some s') : Accounts s' := by
  unfold State.failNext at h
  split at h
  · rename_i ec _
    cases h
    have := hs.resumeRecv (some ec, 0)
    exact ⟨this.sends, this.receives, this.buffers⟩
  · split at h
    · rename_i p rest hsends
      cases h
      exact hs.popSend hsends _
    · cases h
      have hwoken : Accounts s.wakeWriter := ⟨hs.sends, hs.receives, hs.buffers⟩
      have := hwoken.closeNow
      exact ⟨this.sends, this.receives, this.buffers⟩
  · cases h

theorem closeNow_recv (s : State) : s.closeNow.recvBuffer = s.recvBuffer ∧
    s.closeNow.recvOwned = s.recvOwned ∧ s.closeNow.phase = s.phase := by
  unfold State.closeNow
  split
  · exact ⟨rfl, rfl, rfl⟩
  · unfold State.failPending State.resumeRecv
    split <;> exact ⟨rfl, rfl, rfl⟩

/-- At the end all buffers are given back but those of views. The received buffer is given back if
that has not been done. -/
theorem Accounts.releaseResources (hs : Accounts s) {retaken : Bool}
    (howned : retaken → s.recvBuffer ≠ none → s.recvOwned) :
    Accounts (s.releaseResources retaken) := by
  have hc := hs.closeNow
  obtain ⟨hrecv, howned', -⟩ := closeNow_recv s
  refine ⟨hc.sends, hc.receives, ?_⟩
  rw [← show Multiset.range s.closeNow.taken =
    Multiset.range (s.releaseResources retaken).taken from rfl, ← hc.buffers]
  have hlist : s.closeNow.ownedBuffer =
      if s.closeNow.recvOwned || retaken then s.closeNow.recvBuffer.toList else [] := by
    rw [State.ownedBuffer, hrecv, howned']
    cases hown : s.recvOwned with
    | true => rfl
    | false =>
      cases retaken with
      | false => rfl
      | true =>
        cases hb : s.recvBuffer with
        | none => rfl
        | some b =>
          have := howned rfl (by simp [hb])
          rw [hown] at this
          cases this
  rw [hlist]
  change (↑(s.closeNow.returned ++
    (if s.closeNow.recvOwned || retaken then s.closeNow.recvBuffer.toList else []) ++
    s.closeNow.recvResult.map Prod.fst ++ s.closeNow.recvQueue) : Multiset ℕ) +
    s.closeNow.sendCallbacks.filterMap Send.buffer + ↑([] : List ℕ) +
    ↑(([] : List (ℕ × Result)).map Prod.fst) + ↑([] : List ℕ) + s.closeNow.views = _
  simp only [← Multiset.coe_add, List.map_nil, Multiset.coe_nil]
  abel

/-! ### Closing -/

/-- What a closed socket does not have any more. -/
structure Closing (s : State) : Prop where
  recvCallback : s.hasClose → s.recvCallback = none
  sendCallbacks : s.hasClose → s.phase = .idle ∨ s.phase = .released → s.sendCallbacks = []
  /-- a writer waits for a send to be completed -/
  writePromise : s.writePromise → s.sendCallbacks ≠ [] ∨ ∃ ec, s.phase = .failSends ec
  released : s.phase = .released → s.hasClose

theorem closing_init : Closing {} where
  recvCallback := nofun
  sendCallbacks := nofun
  writePromise := nofun
  released := nofun

/-- The fields that closing is about are kept, but that a callback may be gone. -/
theorem Closing.congr (hs : Closing s) (hclose : s'.hasClose = s.hasClose)
    (hrecv : s'.recvCallback = s.recvCallback ∨ s'.recvCallback = none)
    (hsend : s'.sendCallbacks = s.sendCallbacks) (hwrite : s'.writePromise = s.writePromise)
    (hphase : s'.phase = s.phase) : Closing s' where
  recvCallback h := hrecv.elim (fun heq => heq.trans (hs.recvCallback (hclose ▸ h))) id
  sendCallbacks h hp := hsend.trans (hs.sendCallbacks (hclose ▸ h) (hphase ▸ hp))
  writePromise h := by
    rw [hsend, hphase]
    exact hs.writePromise (hwrite ▸ h)
  released h := by
    rw [hclose]
    exact hs.released (hphase ▸ h)

theorem resumeRecv_eq (s : State) (r : Result) : (s.resumeRecv r).recvCallback = none ∧
    (s.resumeRecv r).hasClose = s.hasClose ∧ (s.resumeRecv r).phase = s.phase ∧
    (s.resumeRecv r).writePromise = s.writePromise := by
  unfold State.resumeRecv
  split
  · exact ⟨rfl, rfl, rfl, rfl⟩
  · rename_i h
    exact ⟨h, rfl, rfl, rfl⟩

/-- Nothing is pending behind `close`, if it is the first call. -/
theorem Closing.closeNow (hs : Closing s) : Closing s.closeNow := by
  unfold State.closeNow
  split
  · exact hs
  · obtain ⟨hrecv, hclose, hphase, -⟩ :=
      resumeRecv_eq { s with hasClose := true } (some .operationCanceled, 0)
    refine ⟨fun _ => hrecv, fun _ _ => rfl, nofun, fun _ => hclose⟩

theorem hasClose_closeNow (s : State) : s.closeNow.hasClose := by
  unfold State.closeNow
  split
  · assumption
  · exact (resumeRecv_eq { s with hasClose := true } (some .operationCanceled, 0)).2.1

theorem Closing.postSend (hs : Closing s) (buffer : Bool) (length status : ℕ) :
    Closing (s.postSend buffer length status) := by
  unfold State.postSend
  dsimp only
  split
  · exact hs.congr rfl (.inl rfl) rfl rfl rfl
  · rename_i hclose
    split
    · exact hs.congr rfl (.inl rfl) rfl rfl rfl
    · exact ⟨hs.recvCallback, fun h _ => absurd h hclose, fun _ => .inl (by simp), hs.released⟩

theorem Closing.asyncReceive (hs : Closing s) : Closing s.asyncReceive := by
  unfold State.asyncReceive
  dsimp only
  split
  · exact hs.congr rfl (.inl rfl) rfl rfl rfl
  · split
    · exact hs.congr rfl (.inl rfl) rfl rfl rfl
    · rename_i hclose
      exact ⟨fun h => absurd h hclose, hs.sendCallbacks, hs.writePromise, hs.released⟩

/-- A writer that waits is woken by the first completion. -/
theorem Closing.sendDone (hs : Closing s) (hphase : s.phase = .polling) (ec : Option Errc) :
    Closing (s.sendDone ec) := by
  have hnot : ∀ {s' : State}, s'.phase = s.phase → ¬(s'.phase = .idle ∨ s'.phase = .released) := by
    intro s' h
    rw [h, hphase]
    rintro (h | h) <;> cases h
  unfold State.sendDone
  split
  · exact hs
  · exact ⟨hs.recvCallback, fun _ hp => absurd hp (hnot rfl), nofun, hs.released⟩

/-- A message without bytes closes the socket, while completions are polled. -/
theorem Closing.recvDone (hs : Closing s) (hphase : s.phase = .polling) (cqSize : ℕ)
    (ec : Option Errc) (length n : ℕ) (failed : Bool) :
    Closing (s.recvDone cqSize ec length n failed) := by
  have hwrite : s.writePromise → s.sendCallbacks ≠ [] := by
    intro h
    refine (hs.writePromise h).resolve_right ?_
    rintro ⟨ec, hec⟩
    rw [hphase] at hec
    cases hec
  unfold State.recvDone
  split
  · exact ⟨hs.recvCallback, fun _ hp => by simp at hp, fun h => .inl (hwrite h), nofun⟩
  · rename_i b rest _
    split
    · obtain ⟨hrecv, hclose, hphase', hpromise⟩ :=
        resumeRecv_eq { s with peerClose := true, hasClose := true } (some .connectionReset, 0)
      refine ⟨fun _ => hrecv, fun _ hp => ?_, fun h => .inl ?_, fun hr => ?_⟩
      · rw [hphase'] at hp
        change s.phase = .idle ∨ s.phase = .released at hp
        rw [hphase] at hp
        rcases hp with hp | hp <;> cases hp
      · rw [resumeRecv_sendCallbacks]
        rw [hpromise] at h
        exact hwrite h
      · rw [hclose]
    · dsimp only
      split
      · obtain ⟨hrecv, hclose, hphase', hpromise⟩ := resumeRecv_eq
          { { s with recvQueue := rest }.fillRecvQueue n failed with
            recvBuffer := some b, recvOwned := true } (ec, length)
        exact hs.congr hclose (.inr hrecv) (resumeRecv_sendCallbacks _ _) hpromise hphase'
      · split
        · exact ⟨hs.recvCallback, fun _ hp => by simp at hp, fun h => .inl (hwrite h), nofun⟩
        · exact hs.congr rfl (.inl rfl) rfl rfl rfl

/-- `fail_pending` is followed by `close`. -/
theorem Closing.failNext (hs : Closing s) (h : s.failNext = some s') : Closing s' := by
  unfold State.failNext at h
  split at h
  · rename_i ec hphase
    cases h
    obtain ⟨hrecv, -, -, hpromise⟩ := resumeRecv_eq s (some ec, 0)
    exact ⟨fun _ => hrecv, fun _ hp => by simp at hp, fun _ => .inr ⟨ec, rfl⟩, nofun⟩
  · rename_i ec hphase
    split at h
    · cases h
      refine ⟨hs.recvCallback, fun _ hp => ?_, fun _ => .inr ⟨ec, hphase⟩, hs.released⟩
      change s.phase = .idle ∨ s.phase = .released at hp
      rw [hphase] at hp
      rcases hp with hp | hp <;> cases hp
    · rename_i hsends
      cases h
      have hwoken : Closing s.wakeWriter :=
        ⟨hs.recvCallback, fun _ _ => hsends, nofun, hs.released⟩
      have hc := hwoken.closeNow
      refine ⟨hc.recvCallback, fun _ _ => ?_, fun hw => ?_, nofun⟩
      · change s.wakeWriter.closeNow.sendCallbacks = []
        unfold State.closeNow
        split
        · exact hsends
        · rfl
      · have hpromise : s.wakeWriter.closeNow.writePromise = false := by
          unfold State.closeNow
          split <;> rfl
        change s.wakeWriter.closeNow.writePromise = true at hw
        rw [hpromise] at hw
        cases hw
  · cases h

theorem Closing.releaseResources (hs : Closing s) (hphase : s.phase = .idle) (retaken : Bool) :
    Closing (s.releaseResources retaken) := by
  have hc := hs.closeNow
  have hsends := hc.sendCallbacks (hasClose_closeNow s) (.inl ((closeNow_recv s).2.2.trans hphase))
  refine ⟨hc.recvCallback, fun _ _ => hsends, fun hw => ?_, fun _ => hasClose_closeNow s⟩
  rcases hc.writePromise hw with hne | ⟨ec, hec⟩
  · exact absurd hsends hne
  · rw [(closeNow_recv s).2.2, hphase] at hec
    cases hec

/-! ### Runs -/

/-- What each event leads to. -/
inductive Moves (cfg : Config) (s : State) : Event → State → Prop
  | dropView (b : ℕ) : b ∈ s.views →
      Moves cfg s (.dropView b) { s with views := s.views.erase b, returned := s.returned ++ [b] }
  | send (buffer : Bool) (length status : ℕ) : s.phase ≠ .released →
      Moves cfg s (.send buffer length status) (s.postSend buffer length status)
  | receive : s.phase ≠ .released → Moves cfg s .receive s.asyncReceive
  | slotFree : s.phase ≠ .released → Moves cfg s .waitSlot s
  | waitSlot : s.phase ≠ .released → s.sendCallbacks ≠ [] →
      Moves cfg s .waitSlot { s with writePromise := true }
  | consumed : s.phase ≠ .released → s.recvOwned →
      Moves cfg s .consumed { s.giveBack s.recvBuffer with recvOwned := false }
  | detach : s.phase ≠ .released → s.recvOwned →
      Moves cfg s .detach { s with views := s.views ++ s.recvBuffer.toList, recvOwned := false }
  | fill (n : ℕ) (failed : Bool) : s.phase ≠ .released →
      Moves cfg s (.fill n failed) (s.fillRecvQueue n failed)
  | pollBegin : s.phase = .idle → s.hasClose = false →
      Moves cfg s .pollBegin { s with phase := .polling }
  | sendDone (ec : Option Errc) : s.phase = .polling → Moves cfg s (.sendDone ec) (s.sendDone ec)
  | recvDone (ec : Option Errc) (length n : ℕ) (failed : Bool) : s.phase = .polling →
      Moves cfg s (.recvDone ec length n failed) (s.recvDone cfg.cqSize ec length n failed)
  | pollError : s.phase = .polling → Moves cfg s .pollError { s with phase := .failRecv .ioError }
  | pollEnd : s.phase = .polling → Moves cfg s .pollEnd { s with phase := .idle }
  | failNext {s' : State} : s.failNext = some s' → Moves cfg s .failNext s'
  | close : s.phase ≠ .released → Moves cfg s .close s.closeNow
  | release (retaken : Bool) : s.phase = .idle →
      Moves cfg s (.release retaken) (s.releaseResources retaken)

theorem moves_of_step {event : Event} (h : step cfg s event = some s') :
    Moves cfg s event s' := by
  cases event with
  | dropView b =>
    obtain ⟨hb, heq⟩ := Option.ite_none_right_eq_some.mp h
    exact Option.some.inj heq ▸ .dropView b hb
  | send buffer length status =>
    obtain ⟨hphase, h⟩ := Option.ite_none_left_eq_some.mp h
    obtain ⟨-, heq⟩ := Option.ite_none_left_eq_some.mp h
    exact Option.some.inj heq ▸ .send buffer length status hphase
  | receive =>
    obtain ⟨hphase, heq⟩ := Option.ite_none_left_eq_some.mp h
    exact Option.some.inj heq ▸ .receive hphase
  | waitSlot =>
    obtain ⟨hphase, h⟩ := Option.ite_none_left_eq_some.mp h
    split at h
    · exact Option.some.inj h ▸ .slotFree hphase
    · rename_i hfull
      refine Option.some.inj h ▸ .waitSlot hphase fun hnil => hfull ?_
      rw [hnil]
      exact lt_of_lt_of_le Nat.one_pos (le_max_right _ _)
  | consumed =>
    obtain ⟨hphase, h⟩ := Option.ite_none_left_eq_some.mp h
    obtain ⟨howned, heq⟩ := Option.ite_none_right_eq_some.mp h
    exact Option.some.inj heq ▸ .consumed hphase howned
  | detach =>
    obtain ⟨hphase, h⟩ := Option.ite_none_left_eq_some.mp h
    obtain ⟨howned, heq⟩ := Option.ite_none_right_eq_some.mp h
    exact Option.some.inj heq ▸ .detach hphase howned
  | fill n failed =>
    obtain ⟨hphase, h⟩ := Option.ite_none_left_eq_some.mp h
    obtain ⟨-, heq⟩ := Option.ite_none_right_eq_some.mp h
    exact Option.some.inj heq ▸ .fill n failed hphase
  | pollBegin =>
    obtain ⟨-, h⟩ := Option.ite_none_left_eq_some.mp h
    obtain ⟨⟨hphase, hclose⟩, heq⟩ := Option.ite_none_right_eq_some.mp h
    exact Option.some.inj heq ▸ .pollBegin hphase hclose
  | sendDone ec =>
    obtain ⟨-, h⟩ := Option.ite_none_left_eq_some.mp h
    obtain ⟨hphase, heq⟩ := Option.ite_none_right_eq_some.mp h
    exact Option.some.inj heq ▸ .sendDone ec hphase
  | recvDone ec length n failed =>
    obtain ⟨-, h⟩ := Option.ite_none_left_eq_some.mp h
    obtain ⟨⟨hphase, -⟩, heq⟩ := Option.ite_none_right_eq_some.mp h
    exact Option.some.inj heq ▸ .recvDone ec length n failed hphase
  | pollError =>
    obtain ⟨-, h⟩ := Option.ite_none_left_eq_some.mp h
    obtain ⟨hphase, heq⟩ := Option.ite_none_right_eq_some.mp h
    exact Option.some.inj heq ▸ .pollError hphase
  | pollEnd =>
    obtain ⟨-, h⟩ := Option.ite_none_left_eq_some.mp h
    obtain ⟨hphase, heq⟩ := Option.ite_none_right_eq_some.mp h
    exact Option.some.inj heq ▸ .pollEnd hphase
  | failNext =>
    obtain ⟨-, h⟩ := Option.ite_none_left_eq_some.mp h
    exact .failNext h
  | close =>
    obtain ⟨hphase, heq⟩ := Option.ite_none_left_eq_some.mp h
    exact Option.some.inj heq ▸ .close hphase
  | release retaken =>
    obtain ⟨-, h⟩ := Option.ite_none_left_eq_some.mp h
    obtain ⟨hphase, heq⟩ := Option.ite_none_right_eq_some.mp h
    exact Option.some.inj heq ▸ .release retaken hphase

theorem coe_erase_add {l : List ℕ} {b : ℕ} (hb : b ∈ l) :
    (↑(l.erase b) : Multiset ℕ) + {b} = l := by
  rw [add_comm, Multiset.singleton_add, ← Multiset.coe_erase, Multiset.cons_erase]
  exact Multiset.mem_coe.mpr hb

theorem Accounts.moves {event : Event} (hs : Accounts s) (horderly : Orderly s event)
    (h : Moves cfg s event s') : Accounts s' := by
  cases h with
  | dropView b hb =>
    refine ⟨hs.sends, hs.receives, ?_⟩
    rw [← hs.buffers, ← coe_erase_add hb]
    change (↑(s.returned ++ [b]) : Multiset ℕ) + s.sendCallbacks.filterMap Send.buffer +
      s.recvQueue + s.recvResult.map Prod.fst + s.ownedBuffer + ↑(s.views.erase b) = _
    rw [← Multiset.coe_add, Multiset.coe_singleton]
    abel
  | send buffer length status => exact hs.postSend buffer length status
  | receive => exact hs.asyncReceive horderly.1 horderly.2
  | slotFree => exact hs
  | waitSlot => exact ⟨hs.sends, hs.receives, hs.buffers⟩
  | consumed _ howned =>
    refine ⟨hs.sends, hs.receives, ?_⟩
    have hbuffers := hs.buffers
    rw [State.ownedBuffer, if_pos howned] at hbuffers
    change (↑(s.returned ++ s.recvBuffer.toList) : Multiset ℕ) +
      s.sendCallbacks.filterMap Send.buffer + s.recvQueue + s.recvResult.map Prod.fst +
      ↑([] : List ℕ) + s.views = Multiset.range s.taken
    rw [← hbuffers, ← Multiset.coe_add, Multiset.coe_nil]
    abel
  | detach _ howned =>
    refine ⟨hs.sends, hs.receives, ?_⟩
    have hbuffers := hs.buffers
    rw [State.ownedBuffer, if_pos howned] at hbuffers
    change (s.returned : Multiset ℕ) + s.sendCallbacks.filterMap Send.buffer + s.recvQueue +
      s.recvResult.map Prod.fst + ↑([] : List ℕ) + ↑(s.views ++ s.recvBuffer.toList) =
        Multiset.range s.taken
    rw [← hbuffers, ← Multiset.coe_add, Multiset.coe_nil]
    abel
  | fill n failed => exact hs.fillRecvQueue n failed
  | pollBegin => exact ⟨hs.sends, hs.receives, hs.buffers⟩
  | sendDone ec => exact hs.sendDone ec
  | recvDone ec length n failed => exact hs.recvDone cfg.cqSize ec length n failed horderly
  | pollError => exact ⟨hs.sends, hs.receives, hs.buffers⟩
  | pollEnd => exact ⟨hs.sends, hs.receives, hs.buffers⟩
  | failNext h => exact hs.failNext h
  | close => exact hs.closeNow
  | release retaken => exact hs.releaseResources horderly

theorem Closing.moves {event : Event} (hs : Closing s) (horderly : Orderly s event)
    (h : Moves cfg s event s') : Closing s' := by
  cases h with
  | dropView b hb => exact hs.congr rfl (.inl rfl) rfl rfl rfl
  | send buffer length status => exact hs.postSend buffer length status
  | receive => exact hs.asyncReceive
  | slotFree => exact hs
  | waitSlot _ hne => exact ⟨hs.recvCallback, hs.sendCallbacks, fun _ => .inl hne, hs.released⟩
  | consumed => exact hs.congr rfl (.inl rfl) rfl rfl rfl
  | detach => exact hs.congr rfl (.inl rfl) rfl rfl rfl
  | fill n failed => exact hs.congr rfl (.inl rfl) rfl rfl rfl
  | pollBegin hphase hclose =>
    refine ⟨hs.recvCallback, fun h => absurd (hclose.symm.trans h) Bool.false_ne_true,
      fun hw => .inl ?_, nofun⟩
    refine (hs.writePromise hw).resolve_right ?_
    rintro ⟨ec, hec⟩
    rw [hphase] at hec
    cases hec
  | sendDone ec hphase => exact hs.sendDone hphase ec
  | recvDone ec length n failed hphase => exact hs.recvDone hphase cfg.cqSize ec length n failed
  | pollError hphase =>
    refine ⟨hs.recvCallback, fun _ hp => by simp at hp, fun hw => .inl ?_, nofun⟩
    refine (hs.writePromise hw).resolve_right ?_
    rintro ⟨ec, hec⟩
    rw [hphase] at hec
    cases hec
  | pollEnd hphase =>
    refine ⟨hs.recvCallback, fun hclose _ => horderly hclose, fun hw => .inl ?_, nofun⟩
    refine (hs.writePromise hw).resolve_right ?_
    rintro ⟨ec, hec⟩
    rw [hphase] at hec
    cases hec
  | failNext h => exact hs.failNext h
  | close => exact hs.closeNow
  | release retaken hphase => exact hs.releaseResources hphase retaken

/-- What the state does not have at the end. -/
structure Released (s : State) : Prop where
  recvQueue : s.phase = .released → s.recvQueue = []
  recvResult : s.phase = .released → s.recvResult = []
  ownedBuffer : s.phase = .released → s.ownedBuffer = []

theorem Released.of_ne (h : s.phase ≠ .released) : Released s where
  recvQueue hp := absurd hp h
  recvResult hp := absurd hp h
  ownedBuffer hp := absurd hp h

theorem postSend_phase (s : State) (buffer : Bool) (length status : ℕ) :
    (s.postSend buffer length status).phase = s.phase := by
  unfold State.postSend
  dsimp only
  split
  · rfl
  · split <;> rfl

theorem asyncReceive_phase (s : State) : s.asyncReceive.phase = s.phase := by
  unfold State.asyncReceive
  dsimp only
  split
  · rfl
  · split <;> rfl

theorem sendDone_phase (s : State) (ec : Option Errc) : (s.sendDone ec).phase = s.phase := by
  unfold State.sendDone
  split <;> rfl

theorem recvDone_phase (hphase : s.phase ≠ .released) (cqSize : ℕ) (ec : Option Errc)
    (length n : ℕ) (failed : Bool) :
    (s.recvDone cqSize ec length n failed).phase ≠ .released := by
  unfold State.recvDone
  split
  · exact nofun
  · split
    · intro h
      rw [(resumeRecv_eq _ _).2.2.1] at h
      exact hphase h
    · dsimp only
      split
      · intro h
        rw [(resumeRecv_eq _ _).2.2.1] at h
        exact hphase h
      · split
        · exact nofun
        · exact hphase

theorem failNext_phase (h : s.failNext = some s') : s'.phase ≠ .released := by
  unfold State.failNext at h
  split at h
  · cases h
    exact nofun
  · rename_i ec hphase
    split at h
    · cases h
      intro hp
      change s.phase = .released at hp
      rw [hphase] at hp
      cases hp
    · cases h
      exact nofun
  · cases h

/-- Only views are left at the end. -/
theorem Released.moves {event : Event} (hs : Released s) (h : Moves cfg s event s') :
    Released s' := by
  cases h with
  | dropView b hb => exact ⟨hs.recvQueue, hs.recvResult, hs.ownedBuffer⟩
  | send buffer length status hphase =>
    exact .of_ne fun h => hphase ((postSend_phase s buffer length status).symm.trans h)
  | receive hphase => exact .of_ne fun h => hphase ((asyncReceive_phase s).symm.trans h)
  | slotFree hphase => exact .of_ne hphase
  | waitSlot hphase => exact .of_ne hphase
  | consumed hphase => exact .of_ne hphase
  | detach hphase => exact .of_ne hphase
  | fill n failed hphase => exact .of_ne hphase
  | pollBegin => exact .of_ne nofun
  | sendDone ec hphase =>
    refine .of_ne fun h => ?_
    rw [sendDone_phase, hphase] at h
    cases h
  | recvDone ec length n failed hphase =>
    refine .of_ne (recvDone_phase ?_ _ _ _ _ _)
    rw [hphase]
    exact nofun
  | pollError => exact .of_ne nofun
  | pollEnd => exact .of_ne nofun
  | failNext h => exact .of_ne (failNext_phase h)
  | close hphase => exact .of_ne fun h => hphase ((closeNow_recv s).2.2.symm.trans h)
  | release => exact ⟨fun _ => rfl, fun _ => rfl, fun _ => rfl⟩

/-- What holds of each state that orderly events lead to. -/
structure Invariant (s : State) : Prop where
  accounts : Accounts s
  closing : Closing s
  released : Released s

theorem invariant_init : Invariant {} := ⟨accounts_init, closing_init, .of_ne nofun⟩

theorem Invariant.step {event : Event} (hs : Invariant s) (horderly : Orderly s event)
    (h : UrmaClose.step cfg s event = some s') : Invariant s' :=
  have hmoves := moves_of_step h
  ⟨hs.accounts.moves horderly hmoves, hs.closing.moves horderly hmoves, hs.released.moves hmoves⟩

/-- All that is pending is completed by closing, if the accounts are right. -/
theorem Invariant.completes (hs : Invariant s) : Completes s where
  sends id hid := count_add_count_of_range hs.accounts.sends hid
  receives id hid := count_add_count_of_range hs.accounts.receives hid
  closed hclose hphase := by
    have hsends := hs.closing.sendCallbacks hclose hphase
    refine ⟨hsends, hs.closing.recvCallback hclose, ?_⟩
    by_contra hw
    rcases hs.closing.writePromise (Bool.of_not_eq_false hw) with hne | ⟨ec, hec⟩
    · exact hne hsends
    · rw [hec] at hphase
      rcases hphase with hp | hp <;> cases hp
  buffers hphase b hb := by
    have hsends := hs.closing.sendCallbacks (hs.closing.released hphase) (.inr hphase)
    have hbuffers := hs.accounts.buffers
    rw [hsends, hs.released.recvQueue hphase, hs.released.recvResult hphase,
      hs.released.ownedBuffer hphase] at hbuffers
    simp only [List.filterMap_nil, List.map_nil, Multiset.coe_nil, add_zero] at hbuffers
    exact count_add_count_of_range hbuffers hb

/-- In a run of orderly events each callback is called once, none is pending behind the end, and
each buffer is given back once. -/
theorem completes_of_reaches (h : (system cfg).Reaches Orderly s) : Completes s := by
  have hinvariant : Invariant s :=
    h.invariant invariant_init fun s event s' hs horderly hstep => hs.step horderly hstep
  exact hinvariant.completes

instance (s : State) (event : Event) : Decidable (Orderly s event) := by
  unfold Orderly
  split <;> infer_instance

def smallConfig : Config := ⟨1, 1, 1, 1⟩

/-- One exchange, after which the user closes the socket and drops it. -/
def orderlyRun : List Event :=
  [.fill 1 false, .receive, .send true 3 0, .pollBegin, .sendDone none, .recvDone none 2 1 false,
    .pollEnd, .consumed, .receive, .close, .release false]

/-- The peer closes while a send is pending. -/
def peerCloses : List Event :=
  [.fill 1 false, .send true 3 0, .pollBegin, .recvDone none 0 0 false, .pollEnd]

theorem completes_orderlyRun : ∃ s, (system smallConfig).runIf Orderly {} orderlyRun = some s ∧
    s.phase = .released ∧ Completes s := by
  refine ⟨((system smallConfig).runIf Orderly {} orderlyRun).getD {}, rfl, by decide, ?_⟩
  have hrun : (system smallConfig).runIf Orderly {} orderlyRun =
      some (((system smallConfig).runIf Orderly {} orderlyRun).getD {}) := rfl
  exact completes_of_reaches (reaches_of_runIf .init hrun)

/-- The socket is closed, and the send is pending. -/
theorem not_completes : ¬∀ (cfg : Config) (s : State), (system cfg).Reachable s → Completes s := by
  intro h
  have hrun : (system smallConfig).runIf (fun _ _ => True) {} peerCloses =
      some (((system smallConfig).runIf (fun _ _ => True) {} peerCloses).getD {}) := rfl
  obtain ⟨hsends, -⟩ :=
    (h smallConfig _ (reaches_of_runIf .init hrun)).closed (by decide) (by decide)
  exact absurd hsends (by decide)

end Yalantinglibs.CoroIo.UrmaClose
