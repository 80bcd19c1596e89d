import Mathlib.Tactic.Abel
import Yalantinglibs.Data.Numbering
import Yalantinglibs.Data.TransitionSystem

/-!
# Closing an ibverbs socket

The shared state of `coro_io/ibverbs/ib_socket.hpp` behind `init_fd`: sends and receives are posted,
and the coroutine `listen_event` waits for the channel, polls completions and calls the handlers,
all on one executor. A step is what happens between two calls of handlers, since a coroutine that a
handler resumes may post and close.

Handlers have numbers, one row for the sends and one for the receives. A completion of a send is
that of the oldest send without one. Buffers are counted only.

## Main definitions

* `State`, `Event`, `step` — the shared state, and what may happen to it
* `Invoked` — what is to hold of the handlers
* `Orderly` — when it does

## Main results

* `invoked_of_reaches` — it does in runs of orderly steps
-/

set_option autoImplicit false

namespace Yalantinglibs.CoroIo.IbvClose

open Yalantinglibs.Numbering TransitionSystem

/-! ### The model -/

inductive Errc
  | ioError
  /-- what the verbs return, what a completion says, or why the descriptor is not waited for -/
  | status (n : ℕ)
  deriving DecidableEq

/-- What a handler is called with. -/
inductive Result
  | failed (ec : Errc)
  /-- the completion of a send -/
  | sent (id : ℕ)
  | received (message length : ℕ)
  deriving DecidableEq

/-- `resume_struct`, of a completion that was no error. -/
inductive Completion
  | send (id : ℕ)
  | recv (message length : ℕ)

/-- The send that a completion is of. -/
def Completion.sendId : Completion → Option ℕ
  | .send id => some id
  | .recv _ _ => none

/-- The message that a completion is of. -/
def Completion.message : Completion → Option ℕ
  | .send _ => none
  | .recv message _ => some message

def Result.message : Result → Option ℕ
  | .received message _ => some message
  | _ => none

/-- Where `listen_event` stands, with the status it has seen last. -/
inductive Phase
  | waiting
  /-- it is in the loop over completions -/
  | polling (ec : Option Errc)
  /-- it goes through those that were no errors -/
  | resuming (ec : Option Errc)
  /-- it comes to the receive handler, and then goes through the send handlers -/
  | failRecv (ec : Errc)
  | failSends (ec : Errc)
  | ended
  deriving DecidableEq

/-- It may poll again. -/
def Phase.listens : Phase → Bool
  | .waiting | .polling _ | .resuming _ => true
  | _ => false

/-- It is within `poll_completion`. -/
def Phase.polls : Phase → Bool
  | .polling _ | .resuming _ => true
  | _ => false

structure Config where
  recvBufferCnt : ℕ
  sendBufferCnt : ℕ
  maxRecvWr : ℕ

/-- The capacity of `send_cb_`. -/
def Config.sendRing (cfg : Config) : ℕ := cfg.sendBufferCnt + 2

/-- What `shutdown` meets. -/
structure Notice where
  /-- what posting the bytes in the send buffer returns, if there are any -/
  buffered : Option ℕ
  /-- what posting the empty message returns -/
  empty : ℕ

structure State where
  sendCb : List ℕ := []
  recvCb : Option ℕ := none
  /-- `recv_result_`: messages and their lengths -/
  recvResult : List (ℕ × ℕ) := []
  /-- the size of `recv_queue_` -/
  recvQueue : ℕ
  hasClose : Bool := false
  peerClose : Bool := false
  phase : Phase := .waiting
  vec : List Completion := []
  tmpRecvCallback : Option ℕ := none
  /-- the handler of the empty message, until `shutdown` is over -/
  notice : Option ℕ := none
  /-- `close_impl` has reset the queue pair and released the descriptor -/
  reset : Bool := false
  /-- the sends that have no completion, and how many receives have none -/
  postedSends : List ℕ := []
  postedRecvs : ℕ
  /-- the completion of a send was an error -/
  sendFailed : Bool := false
  /-- the numbers of sends, of receives and of messages -/
  sends : ℕ := 0
  receives : ℕ := 0
  messages : ℕ := 0
  /-- the calls of handlers -/
  sendResults : List (ℕ × Result) := []
  recvResults : List (ℕ × Result) := []

inductive Event
  /-- `post_send_impl`, and what posting returns -/
  | send (skipCheckClose : Bool) (status : ℕ)
  /-- `post_recv_impl` -/
  | recv
  /-- a received buffer is used up and posted again -/
  | recycle (buffer : Bool) (status : ℕ) (n : Notice)
  | close (n : Notice)
  /-- `shutdown` is over -/
  | noticed
  /-- the descriptor is ready -/
  | ready
  /-- the wait fails, as it does behind `cancel`, or there is an error in front of the first poll -/
  | waitFails (ec : Errc)
  /-- the next completion of a send, and one of a receive with the buffer posted behind it -/
  | sendDone (status : ℕ)
  | recvDone (status length : ℕ) (buffer : Bool) (posted : ℕ) (n : Notice)
  /-- the completions cannot be polled -/
  | pollFails
  | pollEnd
  /-- the next handler is called -/
  | resumeNext
  | failNext

namespace State

variable (s : State)

def resumeSend (id : ℕ) (r : Result) : State :=
  { s with sendResults := s.sendResults ++ [(id, r)] }

/-- What `ibv_post_send` returns: EINVAL where the queue pair is reset. -/
def postStatus (status : ℕ) : ℕ := if s.reset then 22 else status

/-- `push` of the ring: where it is full, what is in it is lost. -/
def pushSend (ring : ℕ) (id : ℕ) : State :=
  { s with
    sendCb := if s.sendCb.length = ring then [id] else s.sendCb ++ [id]
    postedSends := s.postedSends ++ [id] }

def postSendImpl (ring : ℕ) (skipCheckClose : Bool) (status : ℕ) : State :=
  let s' := { s with sends := s.sends + 1 }
  -- the error is set here, and nothing is done with it
  if skipCheckClose = false ∧ s.hasClose then s'
  else if s.postStatus status ≠ 0 then
    s'.resumeSend s.sends (.failed (.status (s.postStatus status)))
  else s'.pushSend ring s.sends

def postRecvImpl : State :=
  let s' := { s with receives := s.receives + 1 }
  match s.recvResult with
  | (message, length) :: rest =>
    { s' with
      recvResult := rest
      recvQueue := s.recvQueue - 1
      recvResults := s.recvResults ++ [(s.receives, .received message length)] }
  | [] =>
    if s.hasClose then
      { s' with recvResults := s.recvResults ++ [(s.receives, .failed .ioError)] }
    else { s' with recvCb := some s.receives }

def closeImpl : State := { s with reset := true }

/-- The start of `shutdown`: the buffered bytes, and the empty message. -/
def shutdown (ring : ℕ) (n : Notice) : State :=
  let s' :=
    match n.buffered with
    | some status => s.postSendImpl ring true status
    | none => s
  { s'.postSendImpl ring true n.empty with notice := some s'.sends }

def close (ring : ℕ) (n : Notice) : State :=
  if s.hasClose then s
  else
    let s' := { s with hasClose := true }
    if s.peerClose then s'.closeImpl else s'.shutdown ring n

/-- `add_recv_buffer`, where there is a buffer or there is none. -/
def addRecvBuffer (cfg : Config) (limit : ℕ) (buffer : Bool) (status : ℕ) (n : Notice) : State :=
  if s.peerClose = false ∧ s.recvQueue < cfg.maxRecvWr ∧
      s.recvQueue - s.recvResult.length < limit + s.recvResult.length then
    if buffer = false ∨ s.hasClose ∨ status ≠ 0 then s.close cfg.sendRing n
    else { s with recvQueue := s.recvQueue + 1, postedRecvs := s.postedRecvs + 1 }
  else s

/-- A completion of a send, in the loop over completions. -/
def sendDone (status : ℕ) : State :=
  match s.postedSends with
  | [] => s
  | id :: rest =>
    if status ≠ 0 then
      { s with
        postedSends := rest
        sendFailed := true
        phase := .polling (some (.status status)) }
    else { s with postedSends := rest, vec := s.vec ++ [.send id], phase := .polling none }

/-- A completion of a receive. -/
def recvDone (cfg : Config) (status length : ℕ) (buffer : Bool) (posted : ℕ) (n : Notice) : State :=
  let s := { s with postedRecvs := s.postedRecvs - 1, phase := .polling none }
  if status ≠ 0 then { s with phase := .polling (some (.status status)) }
  else if length = 0 then { s with peerClose := true }.close cfg.sendRing n
  else
    let s' := { s with messages := s.messages + 1 }
    match s.recvCb with
    | some id =>
      { { s' with recvQueue := s.recvQueue - 1 }.addRecvBuffer cfg cfg.recvBufferCnt buffer posted n
        with
        recvCb := none
        tmpRecvCallback := some id
        vec := s.vec ++ [.recv s.messages length] }
    | none =>
      { s' with recvResult := s.recvResult ++ [(s.messages, length)] }.addRecvBuffer cfg
        cfg.recvBufferCnt buffer posted n

/-- `listen_event` behind an error. -/
def stopListening (ring : ℕ) (ec : Errc) : State :=
  -- nothing is posted, since `peer_close_` is set
  { { s with peerClose := true }.close ring ⟨none, 0⟩ with phase := .failRecv ec }

/-- The loop over the completions that were no errors, and what is behind it. -/
def resumeNext (ring : ℕ) (ec : Option Errc) : Option State :=
  match s.vec with
  | .send id :: vec =>
    match s.sendCb with
    | handler :: rest =>
      some ({ s with vec := vec, sendCb := rest }.resumeSend handler (.sent id))
    -- `pop` asserts that there is one
    | [] => none
  | .recv message length :: vec =>
    match s.tmpRecvCallback with
    | some handler =>
      some { s with
        vec := vec
        tmpRecvCallback := none
        recvResults := s.recvResults ++ [(handler, .received message length)] }
    | none => some { s with vec := vec }
  | [] =>
    match ec with
    | none => some { s with phase := .waiting }
    | some ec => some (s.stopListening ring ec)

/-- All that is pending is failed, one after the other. -/
def failNext : Option State :=
  match s.phase with
  | .failRecv ec =>
    match s.recvCb with
    | some id =>
      some { s with
        phase := .failSends ec
        recvCb := none
        recvResults := s.recvResults ++ [(id, .failed ec)] }
    | none => some { s with phase := .failSends ec }
  | .failSends ec =>
    match s.sendCb with
    | id :: rest => some ({ s with sendCb := rest }.resumeSend id (.failed ec))
    | [] => some { s with phase := .ended }
  | _ => none

end State

/-- What may happen to the state. -/
def step (cfg : Config) (s : State) : Event → Option State
  | .ready =>
    if s.phase = .waiting ∧ s.reset = false then some { s with phase := .polling none } else none
  | .waitFails ec => if s.phase = .waiting then some (s.stopListening cfg.sendRing ec) else none
  | .noticed =>
    match s.notice with
    | some id =>
      if id ∈ s.sendResults.map Prod.fst then some { s.closeImpl with notice := none } else none
    | none => none
  | .failNext => s.failNext
  | event =>
    match s.phase, event with
    | .polling _, .sendDone status => if s.postedSends = [] then none else some (s.sendDone status)
    | .polling _, .recvDone status length buffer posted n =>
      if s.postedRecvs = 0 then none else some (s.recvDone cfg status length buffer posted n)
    | .polling _, .pollFails => some { s with phase := .resuming (some .ioError) }
    | .polling ec, .pollEnd => some { s with phase := .resuming ec }
    | .polling _, _ => none
    | .resuming ec, .resumeNext => s.resumeNext cfg.sendRing ec
    -- no handler is called while completions are polled
    | _, .send skipCheckClose status =>
      some (s.postSendImpl cfg.sendRing skipCheckClose status)
    | _, .recv =>
      -- one at a time
      if s.recvCb = none ∧ s.tmpRecvCallback = none then some s.postRecvImpl else none
    | _, .recycle buffer status n =>
      some (s.addRecvBuffer cfg (cfg.recvBufferCnt + 1) buffer status n)
    | _, .close n => some (s.close cfg.sendRing n)
    | _, _ => none

/-- A socket that is connected has posted its receives. -/
def system (cfg : Config) : TransitionSystem State Event :=
  ⟨{ recvQueue := cfg.recvBufferCnt, postedRecvs := cfg.recvBufferCnt }, step cfg⟩

/-! ### What is to hold -/

/-- The handler of each send and of each receive was called once, or is pending; a send has its own
completion or an error, and receives have the messages in their order or an error; and nothing is
pending when `listen_event` has ended. -/
structure Invoked (s : State) : Prop where
  sends : ∀ id < s.sends, (s.sendResults.map Prod.fst).count id + s.sendCb.count id = 1
  own : ∀ p ∈ s.sendResults, ∀ id, p.2 = .sent id → id = p.1
  receives : ∀ id < s.receives, (s.recvResults.map Prod.fst).count id +
    (s.recvCb.toList ++ s.tmpRecvCallback.toList).count id = 1
  messages : s.recvResults.filterMap (fun p => p.2.message) ++ s.vec.filterMap Completion.message ++
    s.recvResult.map Prod.fst = List.range s.messages
  ended : s.phase = .ended → s.sendCb = [] ∧ s.recvCb = none ∧ s.tmpRecvCallback = none

/-- How many sends `shutdown` may add. -/
def Notice.posted (n : Notice) : ℕ :=
  (if n.buffered = some 0 then 1 else 0) + if n.empty = 0 then 1 else 0

/-- A send that heeds the flag is posted before the flag is set; none is posted that has no room in
the ring, or behind the end; and none succeeds when one has failed. -/
def Orderly (cfg : Config) (s : State) : Event → Prop
  | .send skipCheckClose status =>
    (skipCheckClose = false → s.hasClose = false) ∧
      (s.postStatus status = 0 → s.phase ≠ .ended ∧ s.sendCb.length < cfg.sendRing)
  | .recycle _ _ n | .close n | .recvDone _ _ _ _ n =>
    s.sendCb.length + n.posted ≤ cfg.sendRing
  | .sendDone status => status = 0 → s.sendFailed = false
  | _ => True

/-! ### What holds of each state -/

variable {cfg : Config} {s s' : State}

/-- The sends whose handlers are called next. -/
def State.vecSends (s : State) : List ℕ := s.vec.filterMap Completion.sendId

def State.vecMessages (s : State) : List ℕ := s.vec.filterMap Completion.message

structure Invariant (s : State) : Prop where
  sends : (s.sendResults.map Prod.fst : Multiset ℕ) + s.sendCb = Multiset.range s.sends
  receives : (s.recvResults.map Prod.fst : Multiset ℕ) +
    ↑(s.recvCb.toList ++ s.tmpRecvCallback.toList) = Multiset.range s.receives
  messages : s.recvResults.filterMap (fun p => p.2.message) ++ s.vecMessages ++
    s.recvResult.map Prod.fst = List.range s.messages
  own : ∀ p ∈ s.sendResults, ∀ id, p.2 = .sent id → id = p.1
  /-- the handlers of the sends that were polled come first -/
  polled : s.vecSends <+: s.sendCb
  /-- and those of the sends without a completion come then, as long as none has failed -/
  matched : s.phase.listens → s.sendFailed = false → s.sendCb = s.vecSends ++ s.postedSends
  /-- a message that was polled for a handler has it -/
  taken : s.vecMessages.length = s.tmpRecvCallback.toList.length
  /-- a receive waits only where no other one and no message does -/
  oneRecv : s.recvCb ≠ none → s.tmpRecvCallback = none ∧ s.recvResult = []
  resumed : s.phase.polls = false → s.vec = []
  closed : s.phase.listens = false → s.hasClose
  recvFailed : s.phase.listens = false → (∀ ec, s.phase ≠ .failRecv ec) → s.recvCb = none
  ended : s.phase = .ended → s.sendCb = []

theorem invariant_init : Invariant (system cfg).init where
  sends := rfl
  receives := rfl
  messages := rfl
  own _ hp := nomatch hp
  polled := List.nil_prefix
  matched _ _ := rfl
  taken := rfl
  oneRecv h := absurd rfl h
  resumed _ := rfl
  closed h := nomatch h
  recvFailed h := nomatch h
  ended h := nomatch h

/-- A handler that posting has refused is called at once. -/
theorem Invariant.refuse (hs : Invariant s) (ec : Errc) :
    Invariant ({ s with sends := s.sends + 1 }.resumeSend s.sends (.failed ec)) :=
  { hs with
    sends := by
      change (↑((s.sendResults ++ [(s.sends, Result.failed ec)]).map Prod.fst) : Multiset ℕ) +
        s.sendCb = Multiset.range (s.sends + 1)
      rw [← range_add_singleton, ← hs.sends, List.map_append, ← Multiset.coe_add]
      simp only [List.map_cons, List.map_nil, Multiset.coe_singleton]
      abel
    own := by
      intro p hp id hid
      rcases List.mem_append.mp hp with hp | hp
      · exact hs.own p hp id hid
      · obtain rfl := List.mem_singleton.mp hp
        cases hid }

theorem Invariant.push (hs : Invariant s) {ring : ℕ} (hphase : s.phase ≠ .ended)
    (hroom : s.sendCb.length < ring) :
    Invariant ({ s with sends := s.sends + 1 }.pushSend ring s.sends) := by
  have hpush : (if s.sendCb.length = ring then [s.sends] else s.sendCb ++ [s.sends]) =
      s.sendCb ++ [s.sends] := if_neg (by omega)
  exact
  { hs with
    sends := by
      change (s.sendResults.map Prod.fst : Multiset ℕ) +
        ↑(if s.sendCb.length = ring then [s.sends] else s.sendCb ++ [s.sends]) =
          Multiset.range (s.sends + 1)
      rw [hpush, ← range_add_singleton, ← hs.sends, ← Multiset.coe_add, Multiset.coe_singleton]
      abel
    polled := by
      change s.vecSends <+: if s.sendCb.length = ring then [s.sends] else s.sendCb ++ [s.sends]
      rw [hpush]
      exact hs.polled.trans (List.prefix_append _ _)
    matched := by
      intro hlistens hfailed
      change (if s.sendCb.length = ring then [s.sends] else s.sendCb ++ [s.sends]) =
        s.vecSends ++ (s.postedSends ++ [s.sends])
      rw [hpush, hs.matched hlistens hfailed, List.append_assoc]
    ended := fun h => absurd h hphase }

theorem Invariant.postSendImpl (hs : Invariant s) {ring : ℕ} {skipCheckClose : Bool} {status : ℕ}
    (hskip : skipCheckClose = false → s.hasClose = false)
    (hroom : s.postStatus status = 0 → s.phase ≠ .ended ∧ s.sendCb.length < ring) :
    Invariant (s.postSendImpl ring skipCheckClose status) := by
  have hheeded : ¬ (skipCheckClose = false ∧ s.hasClose) := by
    rintro ⟨hfalse, hclose⟩
    rw [hskip hfalse] at hclose
    cases hclose
  rw [State.postSendImpl, if_neg hheeded]
  by_cases hstatus : s.postStatus status = 0
  · rw [if_neg (fun hne => hne hstatus)]
    exact hs.push (hroom hstatus).1 (hroom hstatus).2
  · rw [if_pos hstatus]
    exact hs.refuse _

theorem postStatus_eq_zero {status : ℕ} (h : s.postStatus status = 0) : status = 0 := by
  rw [State.postStatus] at h
  split at h
  · cases h
  · exact h

theorem postSendImpl_phase (ring : ℕ) (skipCheckClose : Bool) (status : ℕ) :
    (s.postSendImpl ring skipCheckClose status).phase = s.phase := by
  rw [State.postSendImpl]
  split
  · rfl
  · split <;> rfl

theorem postSendImpl_length_le (ring status : ℕ) :
    (s.postSendImpl ring true status).sendCb.length ≤
      s.sendCb.length + if status = 0 then 1 else 0 := by
  rw [State.postSendImpl, if_neg (fun h => nomatch h.1)]
  by_cases hstatus : s.postStatus status = 0
  · rw [if_neg (fun hne => hne hstatus), if_pos (postStatus_eq_zero hstatus)]
    change (if s.sendCb.length = ring then [s.sends] else s.sendCb ++ [s.sends]).length ≤ _
    split
    · rw [List.length_singleton]
      omega
    · rw [List.length_append, List.length_singleton]
  · rw [if_pos hstatus]
    exact Nat.le_add_right _ _

/-- `shutdown` posts past the flag. -/
theorem Invariant.shutdown (hs : Invariant s) {ring : ℕ} {n : Notice} (hphase : s.phase ≠ .ended)
    (hroom : s.sendCb.length + n.posted ≤ ring) : Invariant (s.shutdown ring n) := by
  have hlast : ∀ s' : State, Invariant s' → s'.phase = s.phase →
      s'.sendCb.length + (if n.empty = 0 then 1 else 0) ≤ ring →
      Invariant { s'.postSendImpl ring true n.empty with notice := some s'.sends } := by
    intro s' hs' hphase' hroom'
    have hposted : Invariant (s'.postSendImpl ring true n.empty) := by
      refine hs'.postSendImpl nofun fun hstatus => ⟨hphase' ▸ hphase, ?_⟩
      rw [if_pos (postStatus_eq_zero hstatus)] at hroom'
      exact hroom'
    exact { hposted with }
  rw [Notice.posted] at hroom
  rw [State.shutdown]
  cases hbuffered : n.buffered with
  | none =>
    rw [hbuffered] at hroom
    exact hlast s hs rfl (by simpa using hroom)
  | some status =>
    rw [hbuffered] at hroom
    simp only [Option.some.injEq] at hroom
    have hlength := postSendImpl_length_le (s := s) ring status
    have hfirst : Invariant (s.postSendImpl ring true status) := by
      refine hs.postSendImpl nofun fun hstatus => ⟨hphase, ?_⟩
      rw [if_pos (postStatus_eq_zero hstatus)] at hroom
      omega
    exact hlast (s.postSendImpl ring true status) hfirst (postSendImpl_phase _ _ _) (by omega)

theorem Invariant.closeImpl (hs : Invariant s) : Invariant s.closeImpl := { hs with }

/-- `close` does something where it was not called yet, which is not behind the end. -/
theorem Invariant.close (hs : Invariant s) {ring : ℕ} {n : Notice}
    (hroom : s.peerClose = false → s.sendCb.length + n.posted ≤ ring) :
    Invariant (s.close ring n) := by
  rw [State.close]
  by_cases hclose : s.hasClose
  · rw [if_pos hclose]
    exact hs
  · have hset : Invariant { s with hasClose := true } := { hs with closed := fun _ => rfl }
    rw [if_neg hclose]
    by_cases hpeer : s.peerClose
    · rw [if_pos hpeer]
      exact hset.closeImpl
    · rw [if_neg hpeer]
      refine hset.shutdown (fun hended => ?_) (hroom (Bool.eq_false_of_not_eq_true hpeer))
      have hphase : s.phase = .ended := hended
      exact hclose (hs.closed (by rw [hphase]; rfl))

theorem Invariant.addRecvBuffer (hs : Invariant s) {limit : ℕ} {buffer : Bool} {status : ℕ}
    {n : Notice} (hroom : s.sendCb.length + n.posted ≤ cfg.sendRing) :
    Invariant (s.addRecvBuffer cfg limit buffer status n) := by
  rw [State.addRecvBuffer]
  split
  · split
    · exact hs.close fun _ => hroom
    · exact { hs with }
  · exact hs

theorem Invariant.postRecvImpl (hs : Invariant s) (hcb : s.recvCb = none)
    (htmp : s.tmpRecvCallback = none) : Invariant s.postRecvImpl := by
  have hnone : s.vecMessages = [] := by
    rw [← List.length_eq_zero_iff, hs.taken, htmp]
    rfl
  have hreceives := hs.receives
  rw [hcb, htmp, Option.toList_none, List.append_nil, Multiset.coe_nil, add_zero] at hreceives
  have hcalled : ∀ r : Result, (↑((s.recvResults ++ [(s.receives, r)]).map Prod.fst) :
      Multiset ℕ) + ↑(s.recvCb.toList ++ s.tmpRecvCallback.toList) =
        Multiset.range (s.receives + 1) := by
    intro r
    rw [hcb, htmp, ← range_add_singleton, ← hreceives, List.map_append, ← Multiset.coe_add]
    simp
  unfold State.postRecvImpl
  dsimp only
  split
  · rename_i message length rest hresult
    exact
    { hs with
      receives := hcalled _
      messages := by
        have hmessages := hs.messages
        rw [hnone, List.append_nil, hresult] at hmessages
        change (s.recvResults ++ [(s.receives, Result.received message length)]).filterMap
          (fun p => p.2.message) ++ s.vecMessages ++ rest.map Prod.fst = List.range s.messages
        rw [hnone, List.append_nil, ← hmessages, List.filterMap_append, List.append_assoc]
        rfl
      oneRecv := fun h => absurd hcb h }
  · rename_i hresult
    by_cases hclose : s.hasClose
    · rw [if_pos hclose]
      exact
      { hs with
        receives := hcalled _
        messages := by
          change (s.recvResults ++ [(s.receives, Result.failed .ioError)]).filterMap
            (fun p => p.2.message) ++ s.vecMessages ++ s.recvResult.map Prod.fst =
              List.range s.messages
          rw [← hs.messages, List.filterMap_append]
          simp [Result.message] }
    · rw [if_neg hclose]
      exact
      { hs with
        receives := by
          change (s.recvResults.map Prod.fst : Multiset ℕ) +
            ↑([s.receives] ++ s.tmpRecvCallback.toList) = Multiset.range (s.receives + 1)
          rw [htmp, ← range_add_singleton, ← hreceives]
          rfl
        oneRecv := fun _ => ⟨htmp, hresult⟩
        recvFailed := fun hlistens => absurd (hs.closed hlistens) hclose }

/-! ### Polling -/

/-- A successful completion is that of the oldest send whose handler has none. -/
theorem Invariant.sendDone (hs : Invariant s) {ec : Option Errc} (hphase : s.phase = .polling ec)
    {status : ℕ} (hfailed : status = 0 → s.sendFailed = false) : Invariant (s.sendDone status) := by
  unfold State.sendDone
  split
  · exact hs
  · rename_i id rest hposted
    by_cases hstatus : status = 0
    · rw [if_neg (fun hne => hne hstatus)]
      have hmatched := hs.matched (by rw [hphase]; rfl) (hfailed hstatus)
      have hsends : (s.vec ++ [Completion.send id]).filterMap Completion.sendId =
          s.vecSends ++ [id] := List.filterMap_append
      have hmessages : (s.vec ++ [Completion.send id]).filterMap Completion.message =
          s.vecMessages := by
        rw [List.filterMap_append]
        exact List.append_nil _
      rw [hposted] at hmatched
      exact
      { hs with
        messages := by
          change _ ++ (s.vec ++ [Completion.send id]).filterMap Completion.message ++ _ = _
          rw [hmessages]
          exact hs.messages
        polled := by
          change (s.vec ++ [Completion.send id]).filterMap Completion.sendId <+: s.sendCb
          rw [hsends, hmatched]
          exact ⟨rest, by rw [List.append_assoc]; rfl⟩
        matched := by
          intro _ _
          change s.sendCb = (s.vec ++ [Completion.send id]).filterMap Completion.sendId ++ rest
          rw [hsends, hmatched, List.append_assoc]
          rfl
        taken := by
          change ((s.vec ++ [Completion.send id]).filterMap Completion.message).length = _
          rw [hmessages]
          exact hs.taken
        resumed := nofun
        closed := nofun
        recvFailed := nofun
        ended := nofun }
    · rw [if_pos hstatus]
      exact
      { hs with
        matched := nofun
        resumed := nofun
        closed := nofun
        recvFailed := nofun
        ended := nofun }

theorem Invariant.polling (hs : Invariant s) (hlistens : s.phase.listens) (ec : Option Errc) :
    Invariant { s with phase := .polling ec } :=
  { hs with
    matched := fun _ => hs.matched hlistens
    resumed := nofun
    closed := nofun
    recvFailed := nofun
    ended := nofun }

theorem Invariant.resuming (hs : Invariant s) {ec : Option Errc} (hphase : s.phase = .polling ec)
    (ec' : Option Errc) : Invariant { s with phase := .resuming ec' } :=
  { hs with
    matched := fun _ => hs.matched (by rw [hphase]; rfl)
    resumed := nofun
    closed := nofun
    recvFailed := nofun
    ended := nofun }

/-- A message for a handler, as what is to be called. -/
def State.handOn (s : State) (handler : ℕ) (vec : List Completion) : State :=
  { s with recvCb := none, tmpRecvCallback := some handler, vec := vec }

theorem handOn_postSendImpl (handler : ℕ) (vec : List Completion) (ring : ℕ)
    (skipCheckClose : Bool) (status : ℕ) :
    (s.handOn handler vec).postSendImpl ring skipCheckClose status =
      (s.postSendImpl ring skipCheckClose status).handOn handler vec := by
  rw [State.postSendImpl, State.postSendImpl]
  by_cases hheeded : skipCheckClose = false ∧ s.hasClose
  · refine (if_pos hheeded).trans ?_
    rw [if_pos hheeded]
    rfl
  · refine (if_neg hheeded).trans ?_
    rw [if_neg hheeded]
    by_cases hstatus : s.postStatus status ≠ 0
    · refine (if_pos hstatus).trans ?_
      rw [if_pos hstatus]
      rfl
    · refine (if_neg hstatus).trans ?_
      rw [if_neg hstatus]
      rfl

theorem handOn_close (handler : ℕ) (vec : List Completion) (ring : ℕ) (n : Notice) :
    (s.handOn handler vec).close ring n = (s.close ring n).handOn handler vec := by
  have hshutdown : ∀ s : State,
      (s.handOn handler vec).shutdown ring n = (s.shutdown ring n).handOn handler vec := by
    intro s
    rw [State.shutdown, State.shutdown]
    cases n.buffered with
    | none =>
      dsimp only
      rw [handOn_postSendImpl]
      rfl
    | some status =>
      dsimp only
      rw [handOn_postSendImpl, handOn_postSendImpl]
      rfl
  rw [State.close, State.close]
  by_cases hclose : s.hasClose
  · refine (if_pos hclose).trans ?_
    rw [if_pos hclose]
  · refine (if_neg hclose).trans ?_
    rw [if_neg hclose]
    by_cases hpeer : s.peerClose
    · refine (if_pos hpeer).trans ?_
      rw [if_pos hpeer]
      rfl
    · refine (if_neg hpeer).trans ?_
      rw [if_neg hpeer]
      exact hshutdown { s with hasClose := true }

/-- A buffer is posted before the handler is taken, which makes no difference. -/
theorem handOn_addRecvBuffer (handler : ℕ) (vec : List Completion) (limit : ℕ) (buffer : Bool)
    (status : ℕ) (n : Notice) :
    (s.handOn handler vec).addRecvBuffer cfg limit buffer status n =
      (s.addRecvBuffer cfg limit buffer status n).handOn handler vec := by
  rw [State.addRecvBuffer, State.addRecvBuffer]
  by_cases hroom : s.peerClose = false ∧ s.recvQueue < cfg.maxRecvWr ∧
      s.recvQueue - s.recvResult.length < limit + s.recvResult.length
  · refine (if_pos hroom).trans ?_
    rw [if_pos hroom]
    by_cases hfails : buffer = false ∨ s.hasClose ∨ status ≠ 0
    · refine (if_pos hfails).trans ?_
      rw [if_pos hfails]
      exact handOn_close handler vec cfg.sendRing n
    · refine (if_neg hfails).trans ?_
      rw [if_neg hfails]
      rfl
  · refine (if_neg hroom).trans ?_
    rw [if_neg hroom]

theorem Invariant.handOn (hs : Invariant s) (length : ℕ) {handler : ℕ} (hphase : s.phase.polls)
    (hcb : s.recvCb = some handler) :
    Invariant ({ s with messages := s.messages + 1 }.handOn handler
      (s.vec ++ [Completion.recv s.messages length])) := by
  obtain ⟨htmp, hresult⟩ := hs.oneRecv (by rw [hcb]; exact nofun)
  have hsends : (s.vec ++ [Completion.recv s.messages length]).filterMap Completion.sendId =
      s.vecSends := by
    rw [List.filterMap_append]
    exact List.append_nil _
  have hmessages : (s.vec ++ [Completion.recv s.messages length]).filterMap Completion.message =
      s.vecMessages ++ [s.messages] := List.filterMap_append
  have hnone : s.vecMessages = [] := by
    rw [← List.length_eq_zero_iff, hs.taken, htmp]
    rfl
  exact
  { hs with
    receives := by
      have hreceives := hs.receives
      rw [hcb, htmp] at hreceives
      exact hreceives
    messages := by
      have hbefore := hs.messages
      rw [hresult, hnone, List.map_nil, List.append_nil, List.append_nil] at hbefore
      change s.recvResults.filterMap (fun p => p.2.message) ++
        (s.vec ++ [Completion.recv s.messages length]).filterMap Completion.message ++
          s.recvResult.map Prod.fst = List.range (s.messages + 1)
      rw [hmessages, hresult, hnone, hbefore, List.map_nil, List.append_nil, List.nil_append,
        List.range_succ]
    polled := by
      change (s.vec ++ [Completion.recv s.messages length]).filterMap Completion.sendId <+: s.sendCb
      rw [hsends]
      exact hs.polled
    matched := by
      intro hlistens hfailed
      change s.sendCb =
        (s.vec ++ [Completion.recv s.messages length]).filterMap Completion.sendId ++ s.postedSends
      rw [hsends]
      exact hs.matched hlistens hfailed
    taken := by
      change ((s.vec ++ [Completion.recv s.messages length]).filterMap
        Completion.message).length = 1
      rw [hmessages, hnone]
      rfl
    oneRecv := fun h => absurd rfl h
    resumed := by
      intro h
      change s.phase.polls = false at h
      rw [hphase] at h
      cases h
    recvFailed := fun _ _ => rfl }

/-- A message that no handler waits for. -/
theorem Invariant.keep (hs : Invariant s) (length : ℕ) (hcb : s.recvCb = none) :
    Invariant { s with
      messages := s.messages + 1, recvResult := s.recvResult ++ [(s.messages, length)] } :=
  { hs with
    messages := by
      change s.recvResults.filterMap (fun p => p.2.message) ++ s.vecMessages ++
        (s.recvResult ++ [(s.messages, length)]).map Prod.fst = List.range (s.messages + 1)
      rw [List.map_append, ← List.append_assoc, hs.messages, List.range_succ]
      rfl
    oneRecv := fun h => absurd hcb h }

theorem Invariant.recvDone (hs : Invariant s) {ec : Option Errc} (hphase : s.phase = .polling ec)
    {status length : ℕ} {buffer : Bool} {posted : ℕ} {n : Notice}
    (hroom : s.sendCb.length + n.posted ≤ cfg.sendRing) :
    Invariant (s.recvDone cfg status length buffer posted n) := by
  have hlistens : s.phase.listens := by rw [hphase]; rfl
  have hpolled : ∀ ec, Invariant { s with
      postedRecvs := s.postedRecvs - 1, phase := .polling ec } := by
    intro ec
    exact { hs.polling hlistens ec with }
  unfold State.recvDone
  dsimp only
  split
  · exact hpolled _
  · split
    · have hpeer : Invariant { s with
          postedRecvs := s.postedRecvs - 1, phase := .polling none, peerClose := true } :=
        { hpolled none with }
      exact hpeer.close nofun
    · split
      · rename_i handler hcb
        have hhanded := (hpolled none).handOn length rfl hcb
        have hqueue : Invariant (State.handOn
            { s with
              postedRecvs := s.postedRecvs - 1
              phase := .polling none
              messages := s.messages + 1
              recvQueue := s.recvQueue - 1 } handler
            (s.vec ++ [Completion.recv s.messages length])) :=
          { hhanded with }
        have hadded : Invariant (State.addRecvBuffer _ cfg cfg.recvBufferCnt buffer posted n) :=
          hqueue.addRecvBuffer hroom
        rw [handOn_addRecvBuffer] at hadded
        exact hadded
      · rename_i hcb
        have hkept := (hpolled none).keep length hcb
        exact hkept.addRecvBuffer hroom

/-! ### Calling the handlers -/

theorem close_vec (ring : ℕ) (n : Notice) : (s.close ring n).vec = s.vec := by
  have hposted : ∀ (s : State) (status : ℕ), (s.postSendImpl ring true status).vec = s.vec := by
    intro s status
    rw [State.postSendImpl, if_neg (fun h => nomatch h.1)]
    split <;> rfl
  rw [State.close]
  split
  · rfl
  · dsimp only
    split
    · rfl
    · rw [State.shutdown]
      cases n.buffered with
      | none => exact hposted _ _
      | some status => exact (hposted _ _).trans (hposted _ _)

theorem close_hasClose (ring : ℕ) (n : Notice) : (s.close ring n).hasClose := by
  have hposted : ∀ (s : State) (status : ℕ),
      (s.postSendImpl ring true status).hasClose = s.hasClose := by
    intro s status
    rw [State.postSendImpl, if_neg (fun h => nomatch h.1)]
    split <;> rfl
  rw [State.close]
  split
  · assumption
  · dsimp only
    split
    · rfl
    · rw [State.shutdown]
      cases n.buffered with
      | none => exact hposted _ _
      | some status => exact (hposted _ _).trans (hposted _ _)

theorem Invariant.stopListening (hs : Invariant s) (hvec : s.vec = []) (ring : ℕ) (ec : Errc) :
    Invariant (s.stopListening ring ec) := by
  have hpeer : Invariant { s with peerClose := true } := { hs with }
  have hclosed : Invariant (State.close _ ring ⟨none, 0⟩) := hpeer.close nofun
  exact
  { hclosed with
    matched := nofun
    resumed := fun _ => (close_vec ring ⟨none, 0⟩).trans hvec
    closed := fun _ => close_hasClose ring ⟨none, 0⟩
    recvFailed := fun _ h => absurd rfl (h ec)
    ended := nofun }

theorem Invariant.resumeNext (hs : Invariant s) {ring : ℕ} {ec : Option Errc}
    (hphase : s.phase = .resuming ec) (h : s.resumeNext ring ec = some s') : Invariant s' := by
  have hlistens : s.phase.listens := by rw [hphase]; rfl
  have hpolls : s.phase.polls ≠ false := by
    rw [hphase]
    exact Bool.noConfusion
  unfold State.resumeNext at h
  split at h
  · rename_i id vec hvec
    have hpolled := hs.polled
    have hsends : s.vecSends = id :: vec.filterMap Completion.sendId := by
      rw [State.vecSends, hvec]
      rfl
    split at h
    · rename_i handler rest hcb
      cases h
      rw [hsends, hcb] at hpolled
      obtain ⟨rfl, hprefix⟩ := List.cons_prefix_cons.mp hpolled
      have hmessages : vec.filterMap Completion.message = s.vecMessages := by
        rw [State.vecMessages, hvec]
        rfl
      exact
      { hs with
        sends := by
          change (↑((s.sendResults ++ [(id, Result.sent id)]).map Prod.fst) : Multiset ℕ) + rest =
            Multiset.range s.sends
          rw [← hs.sends, hcb, coe_cons, List.map_append, ← Multiset.coe_add]
          simp only [List.map_cons, List.map_nil, Multiset.coe_singleton]
          abel
        messages := by
          change s.recvResults.filterMap (fun p => p.2.message) ++
            vec.filterMap Completion.message ++ s.recvResult.map Prod.fst = List.range s.messages
          rw [hmessages]
          exact hs.messages
        own := by
          intro p hp id' hid
          rcases List.mem_append.mp hp with hp | hp
          · exact hs.own p hp id' hid
          · obtain rfl := List.mem_singleton.mp hp
            cases hid
            rfl
        polled := hprefix
        matched := by
          intro _ hfailed
          have hmatched := hs.matched hlistens hfailed
          rw [hcb, hsends] at hmatched
          exact (List.cons.inj hmatched).2
        taken := by
          change (vec.filterMap Completion.message).length = _
          rw [hmessages]
          exact hs.taken
        resumed := fun h => absurd h hpolls
        ended := by
          intro h
          change s.phase = .ended at h
          rw [hphase] at h
          cases h }
    · cases h
  · rename_i message length vec hvec
    have htaken := hs.taken
    have hmessages : s.vecMessages = message :: vec.filterMap Completion.message := by
      rw [State.vecMessages, hvec]
      rfl
    have hsends : vec.filterMap Completion.sendId = s.vecSends := by
      rw [State.vecSends, hvec]
      rfl
    rw [hmessages] at htaken
    split at h
    · rename_i handler htmp
      cases h
      have hcb : s.recvCb = none := by
        by_contra hne
        rw [(hs.oneRecv hne).1] at htmp
        cases htmp
      have hreceives := hs.receives
      rw [htmp] at htaken hreceives
      have hnil : vec.filterMap Completion.message = [] := by
        rw [← List.length_eq_zero_iff]
        exact Nat.succ.inj htaken
      exact
      { hs with
        receives := by
          change (↑((s.recvResults ++ [(handler, Result.received message length)]).map Prod.fst) :
            Multiset ℕ) + ↑(s.recvCb.toList ++ ([] : List ℕ)) = Multiset.range s.receives
          rw [← hreceives, hcb, List.map_append, ← Multiset.coe_add]
          simp
        messages := by
          have hbefore := hs.messages
          rw [hmessages, hnil] at hbefore
          change (s.recvResults ++ [(handler, Result.received message length)]).filterMap
            (fun p => p.2.message) ++ vec.filterMap Completion.message ++
              s.recvResult.map Prod.fst = List.range s.messages
          rw [hnil, List.append_nil, List.filterMap_append]
          exact hbefore
        polled := by
          change vec.filterMap Completion.sendId <+: s.sendCb
          rw [hsends]
          exact hs.polled
        matched := by
          intro _ hfailed
          change s.sendCb = vec.filterMap Completion.sendId ++ s.postedSends
          rw [hsends]
          exact hs.matched hlistens hfailed
        taken := by
          change (vec.filterMap Completion.message).length = 0
          rw [hnil]
          rfl
        oneRecv := fun hne => absurd hcb hne
        resumed := fun h => absurd h hpolls }
    · rename_i htmp
      rw [htmp] at htaken
      cases htaken
  · rename_i hvec
    cases ec with
    | none =>
      cases h
      exact
      { hs with
        matched := fun _ => hs.matched hlistens
        resumed := fun _ => hvec
        closed := nofun
        recvFailed := nofun
        ended := nofun }
    | some ec =>
      cases h
      exact hs.stopListening hvec ring ec

theorem Invariant.failNext (hs : Invariant s) (h : s.failNext = some s') : Invariant s' := by
  unfold State.failNext at h
  split at h
  · rename_i ec hphase
    have hvec : s.vec = [] := hs.resumed (by rw [hphase]; rfl)
    have htmp : s.tmpRecvCallback = none := by
      have htaken := hs.taken
      rw [State.vecMessages, hvec] at htaken
      rw [← Option.toList_eq_nil_iff, ← List.length_eq_zero_iff]
      exact htaken.symm
    have hclosed : s.hasClose := hs.closed (by rw [hphase]; rfl)
    split at h
    · rename_i id hcb
      cases h
      exact
      { hs with
        receives := by
          have hreceives := hs.receives
          rw [hcb, htmp] at hreceives
          change (↑((s.recvResults ++ [(id, Result.failed ec)]).map Prod.fst) : Multiset ℕ) +
            ↑(([] : List ℕ) ++ s.tmpRecvCallback.toList) = Multiset.range s.receives
          rw [← hreceives, htmp, List.map_append, ← Multiset.coe_add]
          simp
        messages := by
          change (s.recvResults ++ [(id, Result.failed ec)]).filterMap (fun p => p.2.message) ++
            s.vecMessages ++ s.recvResult.map Prod.fst = List.range s.messages
          rw [← hs.messages, List.filterMap_append]
          simp [Result.message]
        matched := nofun
        oneRecv := fun hne => absurd rfl hne
        resumed := fun _ => hvec
        closed := fun _ => hclosed
        recvFailed := fun _ _ => rfl
        ended := nofun }
    · rename_i hcb
      cases h
      exact
      { hs with
        matched := nofun
        resumed := fun _ => hvec
        closed := fun _ => hclosed
        recvFailed := fun _ _ => hcb
        ended := nofun }
  · rename_i ec hphase
    have hvec : s.vec = [] := hs.resumed (by rw [hphase]; rfl)
    have hclosed : s.hasClose := hs.closed (by rw [hphase]; rfl)
    have hrecv : s.recvCb = none := hs.recvFailed (by rw [hphase]; rfl) (by
      intro ec'
      rw [hphase]
      exact nofun)
    have hempty : s.vecSends = [] := by
      rw [State.vecSends, hvec]
      rfl
    split at h
    · rename_i id rest hcb
      cases h
      exact
      { hs with
        sends := by
          change (↑((s.sendResults ++ [(id, Result.failed ec)]).map Prod.fst) : Multiset ℕ) + rest =
            Multiset.range s.sends
          rw [← hs.sends, hcb, coe_cons, List.map_append, ← Multiset.coe_add]
          simp only [List.map_cons, List.map_nil, Multiset.coe_singleton]
          abel
        own := by
          intro p hp id' hid
          rcases List.mem_append.mp hp with hp | hp
          · exact hs.own p hp id' hid
          · obtain rfl := List.mem_singleton.mp hp
            cases hid
        polled := by
          change s.vecSends <+: rest
          rw [hempty]
          exact List.nil_prefix
        matched := by
          intro hlistens
          change s.phase.listens = true at hlistens
          rw [hphase] at hlistens
          cases hlistens
        ended := by
          intro hended
          change s.phase = .ended at hended
          rw [hphase] at hended
          cases hended }
    · rename_i hcb
      cases h
      exact
      { hs with
        matched := nofun
        resumed := fun _ => hvec
        closed := fun _ => hclosed
        recvFailed := fun _ _ => hrecv
        ended := fun _ => hcb }
  · cases h

/-! ### Runs -/

theorem Invariant.step {event : Event} (hs : Invariant s) (horderly : Orderly cfg s event)
    (h : IbvClose.step cfg s event = some s') : Invariant s' := by
  unfold IbvClose.step at h
  split at h
  · split at h
    · rename_i hready
      cases h
      exact hs.polling (by rw [hready.1]; rfl) none
    · cases h
  · split at h
    · rename_i hphase
      cases h
      exact hs.stopListening (hs.resumed (by rw [hphase]; rfl)) _ _
    · cases h
  · split at h
    · split at h
      · cases h
        exact { hs.closeImpl with }
      · cases h
    · cases h
  · exact hs.failNext h
  · split at h
    · split at h
      · cases h
      · cases h
        exact hs.sendDone (by assumption) horderly
    · split at h
      · cases h
      · cases h
        exact hs.recvDone (by assumption) horderly
    · cases h
      exact hs.resuming (by assumption) _
    · cases h
      exact hs.resuming (by assumption) _
    · cases h
    · exact hs.resumeNext (by assumption) h
    · cases h
      exact hs.postSendImpl horderly.1 horderly.2
    · split at h
      · rename_i hnone
        cases h
        exact hs.postRecvImpl hnone.1 hnone.2
      · cases h
    · cases h
      exact hs.addRecvBuffer horderly
    · cases h
      exact hs.close fun _ => horderly
    · cases h

theorem Invariant.invoked (hs : Invariant s) : Invoked s where
  sends _ hid := count_add_count_of_range hs.sends hid
  own := hs.own
  receives _ hid := count_add_count_of_range hs.receives hid
  messages := hs.messages
  ended hphase := by
    have hvec : s.vec = [] := hs.resumed (by rw [hphase]; rfl)
    refine ⟨hs.ended hphase, hs.recvFailed (by rw [hphase]; rfl) fun ec => ?_, ?_⟩
    · rw [hphase]
      exact nofun
    · have htaken := hs.taken
      rw [State.vecMessages, hvec] at htaken
      rw [← Option.toList_eq_nil_iff, ← List.length_eq_zero_iff]
      exact htaken.symm

/-- In a run of orderly steps each handler is called once, with what is its own or an error, and
none is pending when `listen_event` has ended. -/
theorem invoked_of_reaches (h : (system cfg).Reaches (Orderly cfg) s) : Invoked s := by
  have hinvariant : Invariant s :=
    h.invariant invariant_init fun s event s' hs horderly hstep => hs.step horderly hstep
  exact hinvariant.invoked

instance (cfg : Config) (s : State) (event : Event) : Decidable (Orderly cfg s event) := by
  unfold Orderly
  split <;> infer_instance

def smallConfig : Config := ⟨2, 1, 4⟩

/-- A send and a receive are completed, another receive waits, and the user closes the socket. -/
def orderlyRun : List Event :=
  [.send false 0, .recv, .ready, .sendDone 0, .recvDone 0 5 true 0 ⟨none, 0⟩, .pollEnd, .resumeNext,
    .resumeNext, .recv, .resumeNext, .close ⟨none, 0⟩, .ready, .sendDone 0, .pollEnd, .resumeNext,
    .noticed, .resumeNext, .waitFails .ioError, .failNext, .failNext]

theorem invoked_orderlyRun : ∃ s, (system smallConfig).runIf (Orderly smallConfig)
    (system smallConfig).init orderlyRun = some s ∧ s.phase = .ended ∧ Invoked s := by
  refine ⟨((system smallConfig).runIf (Orderly smallConfig) (system smallConfig).init
    orderlyRun).getD (system smallConfig).init, rfl, by decide, ?_⟩
  have hrun : (system smallConfig).runIf (Orderly smallConfig) (system smallConfig).init
      orderlyRun = some (((system smallConfig).runIf (Orderly smallConfig)
        (system smallConfig).init orderlyRun).getD (system smallConfig).init) := rfl
  exact invoked_of_reaches (reaches_of_runIf .init hrun)

/-- The user closes the socket and sends. -/
def sendsAfterClose : List Event := [.close ⟨none, 0⟩, .send false 0]

/-- The handler is neither called nor pending. -/
theorem not_invoked : ¬ ∀ (cfg : Config) (s : State), (system cfg).Reachable s → Invoked s := by
  intro h
  have hrun : (system smallConfig).runIf (fun _ _ => True) (system smallConfig).init
      sendsAfterClose = some (((system smallConfig).runIf (fun _ _ => True)
        (system smallConfig).init sendsAfterClose).getD (system smallConfig).init) := rfl
  have hsends := (h smallConfig _ (reaches_of_runIf .init hrun)).sends 1 (by decide)
  exact absurd hsends (by decide)

end Yalantinglibs.CoroIo.IbvClose
