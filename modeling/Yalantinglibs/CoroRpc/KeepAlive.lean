import Mathlib.Data.Int.Notation
import Yalantinglibs.CoroRpc.ServerAnswers

/-!
# The timeout of a connection

`reset_timer` and `cancel_timer` of `coro_connection.hpp`, and the places they are called from. A
connection that has a timeout arms a timer in front of a handshake and of its read loop, and again
when `response` has brought `rpc_processing_cnt_` to zero; a payload that was read cancels it. The
handler of the wait closes the connection, and looks at nothing else.

A wait that has expired has left the timer. Its handler is queued then, and neither `cancel` nor the
next wait takes it back.

A context that a handler destroys without an answer is one that it has handed on to nobody
(`abandon`). On a closed connection `response` returns at once; the read loop, the handlers and
`send_data` may go on for a while.

## Main definitions

* `State`, `Action`, `step` — a connection with its timer
* `Meets` — no payload and no new wait while a handler is queued, and no expiry during a write
* `SparesBusy` — the handler of a wait runs only on a connection at rest

## Main results

* `sparesBusy_of_reaches` — the connection is at rest, in every state that is reached
-/

set_option autoImplicit false

namespace Yalantinglibs.CoroRpc.KeepAlive

open TransitionSystem Server

/-! ### States -/

/-- The largest time of the steady clock, in nanoseconds. -/
def timeMax : ℤ := 2 ^ 63 - 1

/-- `expires_from_now`: the sum stays inside the clock. -/
def expiresFromNow (now duration : ℤ) : ℤ := min (now + duration) timeMax

/-- A wait of `timer_`, with the number of payloads that were read when it was armed. -/
structure Wait where
  armedAt : ℤ
  expiry : ℤ
  accepted : ℕ
  deriving DecidableEq

/-- Where the coroutine of the connection stands. -/
inductive Phase
  /-- in front of a handshake or of the read loop -/
  | idle
  | handshake
  | serving
  deriving DecidableEq

/-- A connection with its timer. -/
structure State where
  conn : Server.State
  phase : Phase
  hasClosed : Bool
  now : ℤ
  /-- the wait that has not expired -/
  wait : Option Wait
  /-- the waits that have expired, and whose handlers have not run -/
  expired : List Wait
  /-- when `reset_timer` has last armed the timer -/
  armedAt : ℤ

/-- A new connection. -/
def initial : State where
  conn := Server.initial
  phase := .idle
  hasClosed := false
  now := 0
  wait := none
  expired := []
  armedAt := 0

/-! ### Steps -/

/-- What can happen. -/
inductive Action
  /-- the clock goes on -/
  | tick (t : ℤ)
  /-- the handshake of SSL, of `ibverbs` or of `urma` -/
  | beginHandshake
  | endHandshake (ok : Bool)
  /-- `start_impl` comes to its loop -/
  | start
  /-- the read loop, a handler, a task or `send_data` goes on -/
  | conn (a : Server.Action)
  /-- the handler in the read loop returns without an answer, and its context is destroyed -/
  | abandon
  /-- a read ends with an error, or a header is refused -/
  | readFails
  | writeFails
  /-- the task of `async_close` -/
  | asyncClose
  /-- the wait expires -/
  | expire
  /-- the handler of a wait that has expired -/
  | timeout (i : ℕ)

section Steps

variable (ndebug : Bool) (duration : ℤ) (s : State)

/-- `reset_timer`; a duration of zero means that there is no timeout. -/
def resetTimer : State :=
  if duration = 0 ∨ s.conn.rpcProcessingCnt ≠ 0 then s
  else
    { s with
      wait := some ⟨s.now, expiresFromNow s.now duration, s.conn.accepted.length⟩
      armedAt := s.now }

/-- `cancel_timer`. -/
def cancelTimer : State := if duration = 0 then s else { s with wait := none }

/-- `response` has returned at once. -/
def dropResponse (conn conn' : Server.State) : Server.State :=
  { conn' with
    writeQueue := conn.writeQueue
    enqueued := conn.enqueued
    rpcProcessingCnt := conn.rpcProcessingCnt
    senders := conn.senders }

/-- The connection has gone on to `conn`; a call of `response` arms the timer behind the queue. -/
def goOn (conn : Server.State) : State :=
  if conn.enqueued.length = s.conn.enqueued.length then { s with conn }
  else if s.hasClosed then { s with conn := dropResponse s.conn conn }
  else resetTimer duration { s with conn }

/-- An action of the connection, with what it does to the timer. -/
def connStep (a : Server.Action) : Option State :=
  if s.phase ≠ .serving then none
  else
    (Server.step ndebug s.conn a).map fun conn =>
      match a with
      | .readPayload _ => { cancelTimer duration s with conn }
      | _ => goOn duration s conn

/-- The end of the read loop: `close` and `cancel_timer`. -/
def readFails : Option State :=
  match s.phase, s.conn.loop with
  | .serving, .readHead | .serving, .readPayload _ =>
    some (cancelTimer duration { s with
      conn := { s.conn with loop := .stopped }
      hasClosed := true })
  | _, _ => none

/-- `send_data` closes the connection, and leaves the queue as it is. -/
def writeFails : Option State :=
  match s.conn.senders with
  | n + 1 => some { s with conn := { s.conn with senders := n }, hasClosed := true }
  | 0 => none

def step : Action → Option State
  | .tick t => if s.now ≤ t ∧ t < timeMax then some { s with now := t } else none
  | .beginHandshake =>
    if s.phase = .idle then some (resetTimer duration { s with phase := .handshake }) else none
  | .endHandshake ok =>
    if s.phase = .handshake then
      some (cancelTimer duration { s with phase := .idle, hasClosed := s.hasClosed || !ok })
    else none
  | .start =>
    if s.phase = .idle then some (resetTimer duration { s with phase := .serving }) else none
  | .conn a => connStep ndebug duration s a
  | .abandon =>
    (connStep ndebug duration s .capture).bind fun s => connStep ndebug duration s (.finish 0 [])
  | .readFails => readFails duration s
  | .writeFails => writeFails s
  | .asyncClose => some { s with hasClosed := true }
  | .expire =>
    s.wait.bind fun w =>
      if w.expiry ≤ s.now then some { s with wait := none, expired := s.expired ++ [w] } else none
  | .timeout i =>
    if i < s.expired.length then
      some { s with expired := s.expired.eraseIdx i, hasClosed := true }
    else none

end Steps

/-- A connection of a server with this timeout. -/
def connection (ndebug : Bool) (duration : ℤ) : TransitionSystem State Action :=
  ⟨initial, step ndebug duration⟩

/-! ### What is asked of a run -/

/-- While the handler of a wait is queued no payload is read, and no handshake and no read loop
starts. No wait expires while a response is queued or being written. No handler is answered for a
second time, and there are fewer than 2^64 requests at work. -/
def Meets (s : State) : Action → Prop
  | .beginHandshake | .start => s.expired = []
  | .conn a =>
    match a with
    | .readPayload _ =>
      s.expired = [] ∧ s.conn.accepted.length + 1 < 2 ^ 64 + s.conn.enqueued.length
    | _ => s.hasClosed = false → Server.Meets s.conn a
  | .expire => s.conn.writeQueue = []
  | _ => True

instance (s : State) (a : Action) : Decidable (Meets s a) := by
  unfold Meets
  repeat' split
  all_goals infer_instance

/-- The connection is at rest, when the handler of this wait runs. -/
structure AtRest (duration : ℤ) (s : State) (w : Wait) : Prop where
  /-- Every request that was received has its response written. -/
  answered : (s.conn.written.map Frame.request).Perm (List.range s.conn.accepted.length)
  /-- No response is queued or partly written. -/
  queue : s.conn.writeQueue = []
  /-- No payload was read since the wait was armed. -/
  accepted : s.conn.accepted.length = w.accepted
  /-- The timer was last armed the whole duration ago. -/
  notEarly : s.armedAt + duration ≤ s.now

/-- The timer closes the connection only when it is at rest. -/
def SparesBusy (ndebug : Bool) (duration : ℤ) (s : State) : Prop :=
  ∀ i s', step ndebug duration s (.timeout i) = some s' →
    ∃ w, s.expired[i]? = some w ∧ AtRest duration s w

/-! ### The steps of the connection -/

section Effects

variable {ndebug : Bool} {c c' c'' : Server.State} {a : Server.Action}

/-- The queues are as before. -/
structure SameQueues (c c' : Server.State) : Prop where
  accepted : c'.accepted = c.accepted
  enqueued : c'.enqueued = c.enqueued
  writeQueue : c'.writeQueue = c.writeQueue
  written : c'.written = c.written

/-- What a step other than the reading of a payload does to the queues. -/
inductive Effect (c : Server.State) : Server.State → Prop
  | none {c' : Server.State} (h : SameQueues c c') : Effect c c'
  | respond {c' : Server.State} (h : SameQueues c c') (f : Frame) : Effect c (c'.response f)
  | write {c' : Server.State} (f : Frame) (haccepted : c'.accepted = c.accepted)
      (henqueued : c'.enqueued = c.enqueued) (hqueue : c.writeQueue = f :: c'.writeQueue)
      (hwritten : c'.written = c.written ++ [f]) : Effect c c'

theorem effect_finish {code : UInt16} {buf : Bytes} (h : finish ndebug c code buf = some c') :
    Effect c c' := by
  rw [finish] at h
  split at h
  · dsimp only at h
    split_ifs at h
    · exact Option.some.inj h ▸ .none ⟨rfl, rfl, rfl, rfl⟩
    · exact Option.some.inj h ▸ .none ⟨rfl, rfl, rfl, rfl⟩
    -- the read loop answers
    all_goals
      split at h
      · exact Option.some.inj h ▸ .none ⟨rfl, rfl, rfl, rfl⟩
      · obtain rfl := Option.some.inj h
        apply Effect.respond
        exact ⟨rfl, rfl, rfl, rfl⟩
  · cases h

theorem effect_respond {k : ℕ} {reply : Reply} {onExecutor : Bool}
    (h : respond ndebug c k reply onExecutor = some c') : Effect c c' := by
  obtain ⟨g, -, h⟩ := Option.bind_eq_some_iff.mp h
  split at h
  · by_cases hstatus : (c.contexts k).status ≠ .init
    · rw [if_pos hstatus] at h
      exact Option.some.inj h ▸ .none ⟨rfl, rfl, rfl, rfl⟩
    · rw [if_neg hstatus] at h
      obtain ⟨⟨f, x⟩, -, h⟩ := Option.map_eq_some_iff.mp h
      cases onExecutor with
      | true =>
        obtain rfl := h
        apply Effect.respond
        exact ⟨rfl, rfl, rfl, rfl⟩
      | false =>
        obtain rfl := h
        apply Effect.none
        exact ⟨rfl, rfl, rfl, rfl⟩
  · cases h

theorem sameQueues_of_readPayload {plain : Bool}
    (h : Server.step ndebug c (.readPayload plain) = some c') :
    SameQueues { c with accepted := c'.accepted } c' ∧
      c'.accepted.length = c.accepted.length + 1 := by
  rw [Server.step, readPayload] at h
  split at h
  · dsimp only at h
    split_ifs at h <;>
      exact Option.some.inj h ▸ ⟨⟨rfl, rfl, rfl, rfl⟩, List.length_append ..⟩
  · cases h

/-- A step keeps the queues as they are, or it is a call of `response`, or a response is
written. -/
theorem effect_of_step (h : Server.step ndebug c a = some c')
    (ha : ∀ plain, a ≠ .readPayload plain) : Effect c c' := by
  cases a with
  | readHead seqNum =>
    rw [Server.step, readHead] at h
    split at h
    · split_ifs at h <;> exact Option.some.inj h ▸ .none ⟨rfl, rfl, rfl, rfl⟩
    · cases h
  | readPayload plain => exact absurd rfl (ha plain)
  | construct =>
    rw [Server.step, construct] at h
    split at h
    · split_ifs at h
      exact Option.some.inj h ▸ .none ⟨rfl, rfl, rfl, rfl⟩
    · cases h
  | setAttachment k attachment =>
    obtain ⟨g, -, h⟩ := Option.bind_eq_some_iff.mp h
    split at h
    · cases h
    · exact Option.some.inj h ▸ .none ⟨rfl, rfl, rfl, rfl⟩
  | capture =>
    rw [Server.step, capture] at h
    split at h
    · split_ifs at h
      exact Option.some.inj h ▸ .none ⟨rfl, rfl, rfl, rfl⟩
    · cases h
  | respond k reply onExecutor => exact effect_respond h
  | finish code buf => exact effect_finish h
  | finishCoroutine k code buf =>
    obtain ⟨g, -, h⟩ := Option.bind_eq_some_iff.mp h
    obtain ⟨-, h⟩ := Option.ite_none_right_eq_some.mp h
    exact Option.some.inj h ▸ .none ⟨rfl, rfl, rfl, rfl⟩
  | runFinished k =>
    obtain ⟨g, -, h⟩ := Option.bind_eq_some_iff.mp h
    split at h
    · obtain ⟨f, -, rfl⟩ := Option.map_eq_some_iff.mp h
      apply Effect.respond
      exact ⟨rfl, rfl, rfl, rfl⟩
    · cases h
  | runTask i =>
    obtain ⟨f, -, rfl⟩ := Option.map_eq_some_iff.mp h
    apply Effect.respond
    exact ⟨rfl, rfl, rfl, rfl⟩
  | release k =>
    obtain ⟨g, -, h⟩ := Option.bind_eq_some_iff.mp h
    obtain ⟨-, h⟩ := Option.ite_none_right_eq_some.mp h
    exact Option.some.inj h ▸ .none ⟨rfl, rfl, rfl, rfl⟩
  | writeFront =>
    rw [Server.step, writeFront] at h
    split at h
    case h_1 n f writeQueue hsenders hqueue =>
      exact Option.some.inj h ▸ .write f rfl rfl hqueue rfl
    case h_2 => cases h

end Effects

/-! ### The invariant -/

/-- Every request that was received has its response in the queue, or written. -/
def Answered (c : Server.State) : Prop :=
  (c.enqueued.map Frame.request).Perm (List.range c.accepted.length)

/-- Nothing has happened since the wait was armed, and it was the last one. -/
structure Fresh (duration : ℤ) (c : Server.State) (armedAt : ℤ) (w : Wait) : Prop where
  answered : Answered c
  accepted : c.accepted.length = w.accepted
  armedAt : armedAt = w.armedAt
  expiry : w.expiry = expiresFromNow w.armedAt duration

/-- What holds of a connection and its timer. -/
structure Inv (ndebug : Bool) (duration : ℤ) (s : State) : Prop where
  conn : s.hasClosed = false → Server.Inv ndebug [] s.conn
  idle : s.phase ≠ .serving → Answered s.conn
  queue : s.conn.written ++ s.conn.writeQueue = s.conn.enqueued
  atWork : s.conn.accepted.length < 2 ^ 64 + s.conn.enqueued.length
  now : s.now < timeMax
  off : duration = 0 → s.wait = none
  wait : ∀ w, s.wait = some w → Fresh duration s.conn s.armedAt w
  expired : ∀ w ∈ s.expired,
    Fresh duration s.conn s.armedAt w ∧ w.expiry ≤ s.now ∧ s.conn.writeQueue = []

section Invariant

variable {ndebug : Bool} {duration : ℤ} {s s' : State} {c c' : Server.State} {w : Wait}

theorem Answered.congr (h : Answered c) (haccepted : c'.accepted.length = c.accepted.length)
    (henqueued : c'.enqueued = c.enqueued) : Answered c' := by
  rwa [Answered, haccepted, henqueued]

/-- The counter is zero when every request is answered. -/
theorem answered_of_rpcProcessingCnt (hinv : Server.Inv ndebug [] c)
    (hwork : c.accepted.length < 2 ^ 64 + c.enqueued.length) (hcnt : c.rpcProcessingCnt = 0) :
    Answered c := by
  have hle := hinv.length_le
  have hlength : c.accepted.length = c.enqueued.length := by
    have hzero := congrArg UInt64.toNat (hinv.rpcProcessingCnt_eq.symm.trans hcnt)
    rw [UInt64.toNat_ofNat', UInt64.toNat_zero, Nat.mod_eq_of_lt (by omega)] at hzero
    omega
  have howners := hinv.owners
  rw [List.map_nil, List.nil_append, State.owners, ← List.append_assoc] at howners
  have hothers := howners.length_eq
  rw [List.length_append, List.length_range, List.length_map, hlength] at hothers
  rwa [List.eq_nil_of_length_eq_zero (Nat.add_eq_right.mp hothers), List.nil_append] at howners

/-- Where every request is answered, `response` is not called. -/
theorem not_answered_of_response {f : Frame} (hinv : Server.Inv ndebug [] (c'.response f))
    (hsame : SameQueues c c') : ¬ Answered c := by
  intro hanswered
  have hle := hinv.length_le
  have hlength := hanswered.length_eq
  rw [List.length_map, List.length_range] at hlength
  rw [State.response, List.length_append, hsame.accepted, hsame.enqueued,
    List.length_singleton] at hle
  omega

theorem Fresh.congr {armedAt : ℤ} (h : Fresh duration c armedAt w)
    (haccepted : c'.accepted.length = c.accepted.length) (henqueued : c'.enqueued = c.enqueued) :
    Fresh duration c' armedAt w where
  answered := h.answered.congr haccepted henqueued
  accepted := haccepted.trans h.accepted
  armedAt := h.armedAt
  expiry := h.expiry

/-- The clock has not come to its end. -/
theorem Fresh.le_now (h : Fresh duration c s.armedAt w) (hnow : s.now < timeMax)
    (hexpiry : w.expiry ≤ s.now) : s.armedAt + duration ≤ s.now := by
  rw [h.armedAt]
  rw [h.expiry, expiresFromNow] at hexpiry
  omega

theorem inv_initial : Inv ndebug duration initial where
  conn _ := Server.inv_initial
  idle _ := .refl _
  queue := rfl
  atWork := by decide
  now := by decide
  off _ := rfl
  wait _ hw := by cases hw
  expired _ hw := by cases hw

/-- The timer is armed on a connection whose requests are all answered. -/
theorem Inv.resetTimer (hinv : Inv ndebug duration s) (hexpired : s.expired = [])
    (hanswered : s.conn.rpcProcessingCnt = 0 → Answered s.conn) :
    Inv ndebug duration (resetTimer duration s) := by
  rw [KeepAlive.resetTimer]
  split_ifs with harm
  · exact hinv
  · rw [not_or, not_not] at harm
    exact
      { hinv with
        off := fun hoff => absurd hoff harm.1
        wait := by
          rintro w ⟨rfl⟩
          exact ⟨hanswered harm.2, rfl, rfl, rfl⟩
        expired := by
          intro w hw
          rw [hexpired] at hw
          cases hw }

theorem Inv.cancelTimer (hinv : Inv ndebug duration s) :
    Inv ndebug duration (cancelTimer duration s) := by
  rw [KeepAlive.cancelTimer]
  split_ifs
  · exact hinv
  · exact { hinv with off := fun _ => rfl, wait := fun w hw => by cases hw }

/-- The connection goes on, and does not get in the way of the waits. -/
theorem Inv.setConn (hinv : Inv ndebug duration s)
    (hconn : s.hasClosed = false → Server.Inv ndebug [] c)
    (hqueue : c.written ++ c.writeQueue = c.enqueued)
    (haccepted : c.accepted.length = s.conn.accepted.length)
    (henqueued : c.enqueued = s.conn.enqueued)
    (hempty : s.conn.writeQueue = [] → c.writeQueue = []) :
    Inv ndebug duration { s with conn := c } where
  conn := hconn
  idle hphase := (hinv.idle hphase).congr haccepted henqueued
  queue := hqueue
  atWork := by
    rw [haccepted, henqueued]
    exact hinv.atWork
  now := hinv.now
  off := hinv.off
  wait w hw := (hinv.wait w hw).congr haccepted henqueued
  expired w hw := by
    obtain ⟨hfresh, hexpiry, hqueue⟩ := hinv.expired w hw
    exact ⟨hfresh.congr haccepted henqueued, hexpiry, hempty hqueue⟩

/-- A payload is read while no handler of a wait is queued. -/
theorem Inv.readPayload (hinv : Inv ndebug duration s) (hphase : s.phase = .serving)
    {plain : Bool} (hmeets : Meets s (.conn (.readPayload plain)))
    (hs : Server.step ndebug s.conn (.readPayload plain) = some c) :
    Inv ndebug duration { KeepAlive.cancelTimer duration s with conn := c } := by
  obtain ⟨hsame, haccepted⟩ := sameQueues_of_readPayload hs
  have hconn (hopen : s.hasClosed = false) : Server.Inv ndebug [] c :=
    Server.inv_readPayload (hinv.conn hopen) hs
  have hqueue : c.written ++ c.writeQueue = c.enqueued := by
    rw [hsame.written, hsame.writeQueue, hsame.enqueued]
    exact hinv.queue
  have hwork : c.accepted.length < 2 ^ 64 + c.enqueued.length := by
    rw [haccepted, hsame.enqueued]
    exact hmeets.2
  rw [KeepAlive.cancelTimer]
  split_ifs with hoff
  · have hwait := hinv.off hoff
    exact
      { conn := hconn
        idle := fun hidle => absurd hphase hidle
        queue := hqueue
        atWork := hwork
        now := hinv.now
        off := hinv.off
        wait := fun w hw => by
          rw [hwait] at hw
          cases hw
        expired := fun w hw => by
          rw [hmeets.1] at hw
          cases hw }
  · exact
      { conn := hconn
        idle := fun hidle => absurd hphase hidle
        queue := hqueue
        atWork := hwork
        now := hinv.now
        off := fun _ => rfl
        wait := fun w hw => by cases hw
        expired := fun w hw => by
          rw [hmeets.1] at hw
          cases hw }

/-- `response` on an open connection: no wait is armed and none has expired, as a request was not
answered. -/
theorem Inv.response (hinv : Inv ndebug duration s) {f : Frame}
    (hconn : Server.Inv ndebug [] (c.response f)) (hsame : SameQueues s.conn c) :
    Inv ndebug duration (KeepAlive.resetTimer duration { s with conn := c.response f }) := by
  have hnot := not_answered_of_response hconn hsame
  have hwait : s.wait = none := by
    rw [Option.eq_none_iff_forall_ne_some]
    exact fun w hw => hnot (hinv.wait w hw).answered
  have hexpired : s.expired = [] := by
    rw [List.eq_nil_iff_forall_not_mem]
    exact fun w hw => hnot (hinv.expired w hw).1.answered
  have hwork : (c.response f).accepted.length < 2 ^ 64 + (c.response f).enqueued.length := by
    have hwork := hinv.atWork
    rw [State.response, hsame.accepted, hsame.enqueued, List.length_append]
    omega
  have hinv' : Inv ndebug duration { s with conn := c.response f } :=
    { conn := fun _ => hconn
      idle := fun hidle => absurd (hinv.idle hidle) hnot
      queue := hconn.queue
      atWork := hwork
      now := hinv.now
      off := hinv.off
      wait := fun w hw => by
        rw [hwait] at hw
        cases hw
      expired := fun w hw => by
        rw [hexpired] at hw
        cases hw }
  exact hinv'.resetTimer hexpired (answered_of_rpcProcessingCnt hconn hwork)

/-- `response` on a closed connection. -/
theorem Inv.dropResponse (hinv : Inv ndebug duration s) {f : Frame} (hclosed : s.hasClosed = true)
    (hsame : SameQueues s.conn c) :
    Inv ndebug duration { s with conn := KeepAlive.dropResponse s.conn (c.response f) } := by
  refine hinv.setConn (fun hopen => ?_) ?_ (congrArg List.length hsame.accepted) rfl id
  · rw [hclosed] at hopen
    cases hopen
  · exact (congrArg (· ++ s.conn.writeQueue) hsame.written).trans hinv.queue

theorem Inv.goOn (hinv : Inv ndebug duration s)
    (hconn : s.hasClosed = false → Server.Inv ndebug [] c) (heffect : Effect s.conn c) :
    Inv ndebug duration (KeepAlive.goOn duration s c) := by
  rw [KeepAlive.goOn]
  cases heffect with
  | none hsame =>
    rw [if_pos (congrArg List.length hsame.enqueued)]
    refine hinv.setConn hconn ?_ (congrArg List.length hsame.accepted) hsame.enqueued ?_
    · rw [hsame.written, hsame.writeQueue, hsame.enqueued]
      exact hinv.queue
    · exact fun hempty => hsame.writeQueue.trans hempty
  | @respond c hsame f =>
    have hlength : (c.response f).enqueued.length ≠ s.conn.enqueued.length := by
      rw [State.response, List.length_append, hsame.enqueued, List.length_singleton]
      omega
    rw [if_neg hlength]
    by_cases hclosed : s.hasClosed = true
    · rw [if_pos hclosed]
      exact hinv.dropResponse hclosed hsame
    · rw [if_neg hclosed]
      exact hinv.response (hconn (Bool.not_eq_true _ ▸ hclosed)) hsame
  | write f haccepted henqueued hqueue hwritten =>
    rw [if_pos (congrArg List.length henqueued)]
    refine hinv.setConn hconn ?_ (congrArg List.length haccepted) henqueued ?_
    · rw [hwritten, List.append_assoc, List.singleton_append, ← hqueue, henqueued]
      exact hinv.queue
    · intro hempty
      rw [hempty] at hqueue
      cases hqueue

theorem connStep_cases {a : Server.Action} (hs : connStep ndebug duration s a = some s') :
    s.phase = .serving ∧ ∃ c, Server.step ndebug s.conn a = some c ∧
      ((∃ plain, a = .readPayload plain) ∧
          s' = { KeepAlive.cancelTimer duration s with conn := c } ∨
        (∀ plain, a ≠ .readPayload plain) ∧ s' = KeepAlive.goOn duration s c) := by
  obtain ⟨hphase, hs⟩ := Option.ite_none_left_eq_some.mp hs
  obtain ⟨c, hc, rfl⟩ := Option.map_eq_some_iff.mp hs
  refine ⟨not_ne_iff.mp hphase, c, hc, ?_⟩
  cases a with
  | readPayload plain => exact .inl ⟨⟨plain, rfl⟩, rfl⟩
  | _ => exact .inr ⟨fun plain h => Server.Action.noConfusion h, rfl⟩

theorem inv_connStep (hinv : Inv ndebug duration s) {a : Server.Action}
    (hmeets : Meets s (.conn a)) (hs : connStep ndebug duration s a = some s') :
    Inv ndebug duration s' := by
  obtain ⟨hphase, c, hc, ⟨⟨plain, rfl⟩, rfl⟩ | ⟨hread, rfl⟩⟩ := connStep_cases hs
  · exact hinv.readPayload hphase hmeets hc
  · refine hinv.goOn (fun hopen => Server.inv_step (hinv.conn hopen) ?_ hc)
      (effect_of_step hc hread)
    cases a with
    | readPayload plain => exact absurd rfl (hread plain)
    | _ => exact hmeets hopen

/-- On an open connection nothing is taken back. -/
theorem goOn_conn (hopen : (KeepAlive.goOn duration s c).hasClosed = false) :
    (KeepAlive.goOn duration s c).conn = c := by
  unfold KeepAlive.goOn at hopen ⊢
  split_ifs at hopen ⊢ with hlength hclosed
  · rfl
  · rw [hclosed] at hopen
    cases hopen
  · rw [KeepAlive.resetTimer]
    split_ifs <;> rfl

/-- A handler that has handed its context on may return. -/
theorem meets_finish_of_capture (h : Server.step ndebug c .capture = some c') :
    Server.Meets c' (.finish 0 []) := by
  rw [Server.step, capture] at h
  split at h
  case h_1 request g hloop hg =>
    obtain ⟨hstage, h⟩ := Option.ite_none_right_eq_some.mp h
    obtain rfl := Option.some.inj h
    obtain ⟨-, hcontext⟩ := handlerAt_eq_some hg
    have hfind : (c.setHandler g { g with stage := .callback true }).handlerAt c.contextInfo =
        some { g with stage := .callback true } := by
      rw [State.handlerAt, State.setHandler]
      exact List.find?_cons_of_pos (by simpa using hcontext)
    show Server.Meets _ _
    simp only [Server.Meets]
    rw [show (c.setHandler g { g with stage := .callback true }).contextInfo = c.contextInfo
      from rfl, hfind]
    exact .inl rfl
  case h_2 => cases h

/-- A context that is handed on to nobody asks nothing of its handler. -/
theorem inv_abandon (hinv : Inv ndebug duration s)
    (hs : step ndebug duration s .abandon = some s') : Inv ndebug duration s' := by
  obtain ⟨s₁, hs₁, hs'⟩ := Option.bind_eq_some_iff.mp hs
  have hmeets : Meets s (.conn .capture) := fun _ => trivial
  have hinv₁ := inv_connStep hinv hmeets hs₁
  obtain ⟨-, c, hc, ⟨⟨plain, hread⟩, -⟩ | ⟨-, rfl⟩⟩ := connStep_cases hs₁
  · cases hread
  · have hmeets₁ : Meets (KeepAlive.goOn duration s c) (.conn (.finish 0 [])) := by
      intro hopen
      rw [goOn_conn hopen]
      exact meets_finish_of_capture hc
    exact inv_connStep hinv₁ hmeets₁ hs'

/-- The connection is closed, or is closed already. -/
theorem Inv.close (hinv : Inv ndebug duration s) :
    Inv ndebug duration { s with hasClosed := true } :=
  { hinv with conn := fun hopen => by cases hopen }

theorem inv_step (hinv : Inv ndebug duration s) {a : Action} (hmeets : Meets s a)
    (hs : step ndebug duration s a = some s') : Inv ndebug duration s' := by
  cases a with
  | tick t =>
    obtain ⟨⟨hle, hlt⟩, hs⟩ := Option.ite_none_right_eq_some.mp hs
    obtain rfl := Option.some.inj hs
    exact
      { hinv with
        now := hlt
        expired := fun w hw =>
          have hw := hinv.expired w hw
          ⟨hw.1, hw.2.1.trans hle, hw.2.2⟩ }
  | beginHandshake =>
    obtain ⟨hphase, hs⟩ := Option.ite_none_right_eq_some.mp hs
    obtain rfl := Option.some.inj hs
    have hanswered := hinv.idle (by rw [hphase]; exact Phase.noConfusion)
    have hinv' : Inv ndebug duration { s with phase := .handshake } :=
      { hinv with idle := fun _ => hanswered }
    exact hinv'.resetTimer hmeets fun _ => hanswered
  | endHandshake ok =>
    obtain ⟨hphase, hs⟩ := Option.ite_none_right_eq_some.mp hs
    obtain rfl := Option.some.inj hs
    have hinv' : Inv ndebug duration { s with phase := .idle, hasClosed := s.hasClosed || !ok } :=
      { hinv with
        conn := fun hopen => hinv.conn (Bool.or_eq_false_iff.mp hopen).1
        idle := fun _ => hinv.idle (by rw [hphase]; exact Phase.noConfusion) }
    exact hinv'.cancelTimer
  | start =>
    obtain ⟨hphase, hs⟩ := Option.ite_none_right_eq_some.mp hs
    obtain rfl := Option.some.inj hs
    have hanswered := hinv.idle (by rw [hphase]; exact Phase.noConfusion)
    have hinv' : Inv ndebug duration { s with phase := .serving } :=
      { hinv with idle := fun _ => hanswered }
    exact hinv'.resetTimer hmeets fun _ => hanswered
  | conn a => exact inv_connStep hinv hmeets hs
  | abandon => exact inv_abandon hinv hs
  | readFails =>
    have hinv' : Inv ndebug duration
        { s with conn := { s.conn with loop := .stopped }, hasClosed := true } :=
      hinv.close.setConn (fun hopen => by cases hopen) hinv.queue rfl rfl id
    rw [step, readFails] at hs
    split at hs
    · exact Option.some.inj hs ▸ hinv'.cancelTimer
    · exact Option.some.inj hs ▸ hinv'.cancelTimer
    · cases hs
  | writeFails =>
    rw [step, writeFails] at hs
    split at hs
    · exact Option.some.inj hs ▸
        hinv.close.setConn (fun hopen => by cases hopen) hinv.queue rfl rfl id
    · cases hs
  | asyncClose => exact Option.some.inj hs ▸ hinv.close
  | expire =>
    obtain ⟨w, hw, hs⟩ := Option.bind_eq_some_iff.mp hs
    obtain ⟨hexpiry, hs⟩ := Option.ite_none_right_eq_some.mp hs
    obtain rfl := Option.some.inj hs
    exact
      { hinv with
        off := fun _ => rfl
        wait := fun _ h => by cases h
        expired := by
          intro v hv
          obtain hv | hv := List.mem_append.mp hv
          · exact hinv.expired v hv
          · obtain rfl := List.mem_singleton.mp hv
            exact ⟨hinv.wait v hw, hexpiry, hmeets⟩ }
  | timeout i =>
    obtain ⟨-, hs⟩ := Option.ite_none_right_eq_some.mp hs
    obtain rfl := Option.some.inj hs
    exact
      { hinv.close with
        expired := fun w hw => hinv.expired w (List.mem_of_mem_eraseIdx hw) }

end Invariant

/-- If every step of a run meets the condition, the timer closes the connection only when it is at
rest. -/
theorem sparesBusy_of_reaches {ndebug : Bool} {duration : ℤ} {s : State}
    (h : (connection ndebug duration).Reaches Meets s) : SparesBusy ndebug duration s := by
  have hinv : Inv ndebug duration s :=
    h.invariant inv_initial fun _ _ _ hinv hmeets hs => inv_step hinv hmeets hs
  intro i s' hs
  obtain ⟨hi, -⟩ := Option.ite_none_right_eq_some.mp hs
  obtain ⟨hfresh, hexpiry, hqueue⟩ := hinv.expired _ (List.getElem_mem hi)
  have hwritten := hinv.queue
  rw [hqueue, List.append_nil] at hwritten
  exact ⟨_, List.getElem?_eq_getElem hi,
    { answered := by
        rw [hwritten]
        exact hfresh.answered
      queue := hqueue
      accepted := hfresh.accepted
      notEarly := hfresh.le_now hinv.now hexpiry }⟩

/-- Two requests overlap, one with a handler that answers later and one with a coroutine. The timer
expires when both are answered. -/
theorem sparesBusy_twoRequests : ∃ s s', (connection false 10).runIf Meets initial
      [.beginHandshake, .tick 4, .endHandshake true, .start, .conn (.readHead 7),
        .conn (.readPayload true), .conn .construct, .conn .capture, .conn (.finish 0 []),
        .conn (.readHead 8), .conn (.readPayload false), .tick 25,
        .conn (.respond 0 (.msg [1]) false), .conn (.runTask 0), .conn .writeFront,
        .conn (.finishCoroutine 1 0 [2]), .conn (.runFinished 1), .tick 30, .conn .writeFront,
        .tick 36, .expire] = some s ∧
    step false 10 s (.timeout 0) = some s' ∧ s'.hasClosed = true ∧ SparesBusy false 10 s := by
  have hrun : (((connection false 10).runIf Meets initial
      [.beginHandshake, .tick 4, .endHandshake true, .start, .conn (.readHead 7),
        .conn (.readPayload true), .conn .construct, .conn .capture, .conn (.finish 0 []),
        .conn (.readHead 8), .conn (.readPayload false), .tick 25,
        .conn (.respond 0 (.msg [1]) false), .conn (.runTask 0), .conn .writeFront,
        .conn (.finishCoroutine 1 0 [2]), .conn (.runFinished 1), .tick 30, .conn .writeFront,
        .tick 36, .expire]).map
          fun s => s.expired) = some [⟨25, 35, 2⟩] := by decide
  obtain ⟨s, hs, hexpired⟩ := Option.map_eq_some_iff.mp hrun
  have hlength : 0 < s.expired.length := by
    rw [hexpired]
    exact Nat.one_pos
  exact ⟨s, _, hs, if_pos hlength, rfl, sparesBusy_of_reaches (reaches_of_runIf .init hs)⟩

/-- The handler of a wait is queued, and not every request is answered. -/
theorem not_sparesBusy_of_unanswered {ndebug : Bool} {duration : ℤ} {s : State}
    (hexpired : s.expired.length ≠ 0) (hwritten : s.conn.written.length ≠ s.conn.accepted.length) :
    ¬ SparesBusy ndebug duration s := by
  intro hspares
  obtain ⟨w, -, hrest⟩ := hspares 0 _ (if_pos (Nat.pos_of_ne_zero hexpired))
  have hlength := hrest.answered.length_eq
  rw [List.length_map, List.length_range] at hlength
  exact hwritten hlength

/-- A payload comes when the handler of the wait is queued, and the connection is closed under its
request. It is closed as well under a response that takes longer to be written than the timeout. -/
theorem not_sparesBusy_latePayload :
    (∃ s, (connection false 10).Reachable s ∧ ¬ SparesBusy false 10 s ∧
      s.conn.accepted = [7] ∧ s.conn.enqueued.length = 0) ∧
    ∃ s, (connection false 10).Reachable s ∧ ¬ SparesBusy false 10 s ∧
      s.conn.accepted = [7] ∧ s.conn.writeQueue.length = 1 := by
  have hlate : ((connection false 10).runIf (fun _ _ => True) initial
      [.start, .conn (.readHead 7), .tick 10, .expire, .conn (.readPayload true),
        .conn .construct, .conn .capture, .conn (.finish 0 [])]).map
          (fun s => (s.expired.length, s.conn.accepted, s.conn.enqueued.length,
            s.conn.written.length)) = some (1, [7], 0, 0) := by decide
  have hslow : ((connection false 10).runIf (fun _ _ => True) initial
      [.start, .conn (.readHead 7), .tick 5, .conn (.readPayload true), .conn (.finish 0 [1]),
        .tick 15, .expire]).map
          (fun s => (s.expired.length, s.conn.accepted, s.conn.writeQueue.length,
            s.conn.written.length)) = some (1, [7], 1, 0) := by decide
  constructor
  · obtain ⟨s, hs, hstate⟩ := Option.map_eq_some_iff.mp hlate
    simp only [Prod.mk.injEq] at hstate
    obtain ⟨hexpired, haccepted, henqueued, hwritten⟩ := hstate
    refine ⟨s, reaches_of_runIf .init hs, not_sparesBusy_of_unanswered ?_ ?_, haccepted, henqueued⟩
    · rw [hexpired]
      exact Nat.one_ne_zero
    · rw [hwritten, haccepted]
      exact Nat.zero_ne_one
  · obtain ⟨s, hs, hstate⟩ := Option.map_eq_some_iff.mp hslow
    simp only [Prod.mk.injEq] at hstate
    obtain ⟨hexpired, haccepted, hqueue, hwritten⟩ := hstate
    refine ⟨s, reaches_of_runIf .init hs, not_sparesBusy_of_unanswered ?_ ?_, haccepted, hqueue⟩
    · rw [hexpired]
      exact Nat.one_ne_zero
    · rw [hwritten, haccepted]
      exact Nat.zero_ne_one

end Yalantinglibs.CoroRpc.KeepAlive
