import Mathlib.Data.List.Basic
import Mathlib.Order.Nat
import Yalantinglibs.Data.TransitionSystem

/-!
# A client that connects again

`reset` and `connect_impl` of `coro_rpc_client.hpp` beside the `recv` of a connection. Everything
runs on the executor of the client, and a task runs to its next suspension: a `recv` from the end
of one read to the start of the next one or to its return, and `reset` from the closing of the old
socket to the connecting of the new one.

The sockets of a client are numbered. A `recv` and a request carry the number of the socket they
were started or sent on, which the program has no trace of.

## Main definitions

* `Exit` — what a `recv` does when it leaves
* `State`, `Action`, `step` — a client
* `Isolated` — a `recv` that leaves touches no later connection

## Main results

* `isolated_of_reaches` — this holds if no read is outstanding when `reset` goes on
* `exists_not_isolated` — an outstanding read breaks it as soon as it completes
-/

set_option autoImplicit false

namespace Yalantinglibs.CoroRpc.Reconnect

open TransitionSystem

/-- A request that waits for its response. -/
structure Request where
  id : ℕ
  socket : ℕ
  deriving DecidableEq

/-- What a `recv` does when it leaves. -/
structure Exit where
  /-- the socket that its last read was on -/
  socket : ℕ
  /-- the socket that it closes; `has_closed_` is set then, too -/
  closed : Option ℕ
  /-- the reads that are outstanding when it clears `recv_running_` -/
  reading : List ℕ
  /-- the requests that it completes with its error -/
  completed : List Request
  deriving DecidableEq

/-- Where `connect_impl` stands. -/
inductive Connect
  | idle
  /-- `close_socket` waits for its task -/
  | closing
  /-- it resolves the host, or connects -/
  | connecting
  deriving DecidableEq

/-- A client. -/
structure State where
  /-- the number of the socket in `socket_wrapper_` -/
  socket : ℕ
  isOpen : Bool
  initOk : Bool
  shouldReset : Bool
  connect : Connect
  hasClosed : Bool
  isTimeout : Bool
  recvRunning : Bool
  /-- the sockets of the outstanding reads -/
  recvs : List ℕ
  /-- `response_handler_table_` -/
  table : List Request
  requests : ℕ
  /-- the number of closings that were dispatched -/
  closings : ℕ
  /-- the exits so far -/
  exits : List Exit

/-- A new client. -/
def initial : State where
  socket := 0
  isOpen := true
  initOk := true
  shouldReset := false
  connect := .idle
  hasClosed := false
  isTimeout := false
  recvRunning := false
  recvs := []
  table := []
  requests := 0
  closings := 0
  exits := []

/-- What can happen. -/
inductive Action
  /-- `connect` is called -/
  | connect
  /-- the task of `close_socket`: `reset` goes on, and then `connect_impl` -/
  | reset (initOk : Bool)
  /-- `connect_impl` returns -/
  | connected
  /-- a `send_request`, whose write may fail -/
  | sendRequest (ok : Bool)
  /-- a read completes with the response to a request -/
  | response (i : ℕ) (id : ℕ)
  /-- a read fails, or brings an unknown id -/
  | exit (i : ℕ)
  /-- `close_socket_async`, from a timer or a user -/
  | closeSocketAsync
  /-- the task of it -/
  | runClose
  /-- a timer sets `is_timeout_` -/
  | timeout

section Steps

variable (s : State)

/-- `connect_impl` up to its first suspension. -/
def connect : Option State :=
  -- `connect_mutex_` lets one call through
  if s.connect = .idle ∧ s.initOk then
    if s.shouldReset then
      some { s with connect := .closing, hasClosed := true }
    else some { s with shouldReset := true, hasClosed := false, connect := .connecting }
  else none

/-- The new socket takes the place of the old one, which is closed if it was not, and the flags are
set back. Closings that were dispatched before are in front of this task. -/
def reset (initOk : Bool) : Option State :=
  if s.connect = .closing ∧ s.closings = 0 then
    some { s with
      socket := s.socket + 1
      isOpen := initOk
      initOk
      isTimeout := false
      hasClosed := false
      connect := if initOk then .connecting else .idle }
  else none

def connected : Option State :=
  if s.connect = .connecting then some { s with connect := .idle } else none

/-- `send_request`: it starts a `recv` on the socket, unless one is running. -/
def sendRequest (ok : Bool) : Option State :=
  if s.hasClosed then some s
  else if ok then
    some { s with
      requests := s.requests + 1
      table := ⟨s.requests, s.socket⟩ :: s.table
      recvRunning := true
      recvs := if s.recvRunning then s.recvs else s.socket :: s.recvs }
  else some { s with requests := s.requests + 1, hasClosed := true, closings := s.closings + 1 }

/-- A response is taken, and the next read is on the socket in `socket_wrapper_`. -/
def response (i : ℕ) (id : ℕ) : Option State :=
  if i < s.recvs.length ∧ ∃ r ∈ s.table, r.id = id then
    let table := s.table.filter fun r => r.id ≠ id
    if table = [] then some { s with table, recvRunning := false, recvs := s.recvs.eraseIdx i }
    else some { s with table, recvs := s.recvs.set i s.socket }
  else none

/-- The end of `recv`. On the executor, the socket is closed at once. -/
def exit (i : ℕ) : Option State :=
  s.recvs[i]?.map fun socket =>
    { s with
      recvRunning := false
      hasClosed := true
      isOpen := if s.hasClosed then s.isOpen else false
      table := []
      recvs := s.recvs.eraseIdx i
      exits := s.exits ++ [⟨socket, if s.hasClosed then none else some s.socket,
        s.recvs.eraseIdx i, s.table⟩] }

/-- The client takes an action. -/
def step : Action → Option State
  | .connect => connect s
  | .reset initOk => reset s initOk
  | .connected => connected s
  | .sendRequest ok => sendRequest s ok
  | .response i id => response s i id
  | .exit i => exit s i
  | .closeSocketAsync =>
    some (if s.hasClosed then s else { s with hasClosed := true, closings := s.closings + 1 })
  | .runClose =>
    if 0 < s.closings then some { s with closings := s.closings - 1, isOpen := false } else none
  | .timeout => some { s with isTimeout := true }

end Steps

/-- A client. -/
def client : TransitionSystem State Action := ⟨initial, step⟩

/-! ### Isolation -/

/-- A `recv` that leaves closes no later socket, clears `recv_running_` under no later read, and
completes no request of a later connection. -/
structure Exit.Isolated (e : Exit) : Prop where
  closed : ∀ k ∈ e.closed, k ≤ e.socket
  reading : ∀ k ∈ e.reading, k ≤ e.socket
  completed : ∀ r ∈ e.completed, r.socket ≤ e.socket

/-- Every `recv` that has left did so. -/
def Isolated (s : State) : Prop := ∀ e ∈ s.exits, e.Isolated

/-- When `reset` goes on, no read is outstanding. -/
def Meets (s : State) : Action → Prop
  | .reset _ => s.recvs = []
  | _ => True

instance (s : State) (a : Action) : Decidable (Meets s a) := by
  cases a <;> unfold Meets <;> infer_instance

section Lemmas

variable {s s' : State} {a : Action}

/-- What an action does to the reads, the table and the exits. -/
theorem step_cases (hs : step s a = some s') :
    -- a read ends, or starts on the socket of the client
    (s'.socket = s.socket ∧ (∀ k ∈ s'.recvs, k ∈ s.recvs ∨ k = s.socket) ∧
        (∀ r ∈ s'.table, r ∈ s.table ∨ r.socket = s.socket) ∧ s'.exits = s.exits) ∨
      -- `reset`
      (∃ initOk, a = .reset initOk ∧ s'.socket = s.socket + 1 ∧ s'.recvs = s.recvs ∧
        s'.table = s.table ∧ s'.exits = s.exits) ∨
      -- a `recv` leaves
      ∃ i k, s.recvs[i]? = some k ∧ s'.socket = s.socket ∧ s'.recvs = s.recvs.eraseIdx i ∧
        s'.table = [] ∧ s'.exits = s.exits ++ [⟨k, if s.hasClosed then none else some s.socket,
          s.recvs.eraseIdx i, s.table⟩] := by
  cases a with
  | connect =>
    obtain ⟨-, hs⟩ := Option.ite_none_right_eq_some.mp hs
    split_ifs at hs
    all_goals cases hs
    all_goals exact .inl ⟨rfl, fun _ h => .inl h, fun _ h => .inl h, rfl⟩
  | reset initOk =>
    obtain ⟨-, hs⟩ := Option.ite_none_right_eq_some.mp hs
    cases hs
    exact .inr (.inl ⟨initOk, rfl, rfl, rfl, rfl, rfl⟩)
  | connected =>
    obtain ⟨-, hs⟩ := Option.ite_none_right_eq_some.mp hs
    cases hs
    exact .inl ⟨rfl, fun _ h => .inl h, fun _ h => .inl h, rfl⟩
  | sendRequest ok =>
    rw [step, sendRequest] at hs
    have hnew : ∀ r ∈ (⟨s.requests, s.socket⟩ : Request) :: s.table,
        r ∈ s.table ∨ r.socket = s.socket := by
      intro r hr
      rcases List.mem_cons.mp hr with rfl | hr
      · exact .inr rfl
      · exact .inl hr
    split_ifs at hs with hclosed hok hrunning
    all_goals cases hs
    · exact .inl ⟨rfl, fun _ h => .inl h, fun _ h => .inl h, rfl⟩
    · exact .inl ⟨rfl, fun _ h => .inl h, hnew, rfl⟩
    · exact .inl ⟨rfl, fun _ h => (List.mem_cons.mp h).symm, hnew, rfl⟩
    · exact .inl ⟨rfl, fun _ h => .inl h, fun _ h => .inl h, rfl⟩
  | response i id =>
    obtain ⟨-, hs⟩ := Option.ite_none_right_eq_some.mp hs
    split_ifs at hs
    all_goals cases hs
    · exact .inl ⟨rfl, fun _ h => .inl (List.mem_of_mem_eraseIdx h),
        fun _ h => .inl (List.mem_of_mem_filter h), rfl⟩
    · exact .inl ⟨rfl, fun _ h => List.mem_or_eq_of_mem_set h,
        fun _ h => .inl (List.mem_of_mem_filter h), rfl⟩
  | exit i =>
    obtain ⟨k, hk, rfl⟩ := Option.map_eq_some_iff.mp hs
    exact .inr (.inr ⟨i, k, hk, rfl, rfl, rfl, rfl⟩)
  | closeSocketAsync =>
    cases hs
    split_ifs
    all_goals exact .inl ⟨rfl, fun _ h => .inl h, fun _ h => .inl h, rfl⟩
  | runClose =>
    obtain ⟨-, hs⟩ := Option.ite_none_right_eq_some.mp hs
    cases hs
    exact .inl ⟨rfl, fun _ h => .inl h, fun _ h => .inl h, rfl⟩
  | timeout =>
    cases hs
    exact .inl ⟨rfl, fun _ h => .inl h, fun _ h => .inl h, rfl⟩

/-- Nothing is ahead of the socket of the client. -/
structure Bounded (s : State) : Prop where
  recvs : ∀ k ∈ s.recvs, k ≤ s.socket
  table : ∀ r ∈ s.table, r.socket ≤ s.socket

theorem bounded_step (hinv : Bounded s) (hs : step s a = some s') : Bounded s' := by
  rcases step_cases hs with ⟨hsocket, hrecvs, htable, -⟩ |
    ⟨-, -, hsocket, hrecvs, htable, -⟩ | ⟨i, k, -, hsocket, hrecvs, htable, -⟩
  · constructor
    · intro k hk
      rw [hsocket]
      exact (hrecvs k hk).elim (hinv.recvs k) Eq.le
    · intro r hr
      rw [hsocket]
      exact (htable r hr).elim (hinv.table r) Eq.le
  · constructor
    · rw [hsocket, hrecvs]
      exact fun k hk => (hinv.recvs k hk).trans (Nat.le_succ _)
    · rw [hsocket, htable]
      exact fun r hr => (hinv.table r hr).trans (Nat.le_succ _)
  · constructor
    · rw [hsocket, hrecvs]
      exact fun g hg => hinv.recvs g (List.mem_of_mem_eraseIdx hg)
    · rw [htable]
      exact nofun

theorem bounded_initial : Bounded initial := ⟨by simp [initial], by simp [initial]⟩

theorem bounded_of_reachable (h : client.Reachable s) : Bounded s :=
  h.invariant bounded_initial fun _ _ _ hinv _ hs => bounded_step hinv hs

/-- All reads are on the socket of the client. -/
theorem current_step (hcurrent : ∀ k ∈ s.recvs, k = s.socket) (hmeets : Meets s a)
    (hs : step s a = some s') : ∀ k ∈ s'.recvs, k = s'.socket := by
  rcases step_cases hs with ⟨hsocket, hrecvs, -, -⟩ |
    ⟨initOk, rfl, -, hrecvs, -, -⟩ | ⟨i, k, -, hsocket, hrecvs, -, -⟩
  · intro k hk
    rw [hsocket]
    exact (hrecvs k hk).elim (hcurrent k) id
  · rw [hrecvs, show s.recvs = [] from hmeets]
    exact nofun
  · rw [hsocket, hrecvs]
    exact fun g hg => hcurrent g (List.mem_of_mem_eraseIdx hg)

/-- A `recv` that has read the socket of the client leaves nothing later behind. -/
theorem isolated_step (hbounded : Bounded s) (hcurrent : ∀ k ∈ s.recvs, k = s.socket)
    (hisolated : Isolated s) (hs : step s a = some s') : Isolated s' := by
  rcases step_cases hs with ⟨-, -, -, hexits⟩ | ⟨-, -, -, -, -, hexits⟩ |
    ⟨i, k, hk, -, -, -, hexits⟩
  · rwa [Isolated, hexits]
  · rwa [Isolated, hexits]
  · intro e he
    rw [hexits] at he
    rcases List.mem_append.mp he with he | he
    · exact hisolated e he
    · obtain rfl := hcurrent k (List.mem_of_getElem? hk)
      rw [List.mem_singleton.mp he]
      refine ⟨fun g hg => ?_, fun g hg => ?_, hbounded.table⟩
      · simp only at hg
        split_ifs at hg
        · cases hg
        · exact (Option.mem_some_iff.mp hg).ge
      · exact hbounded.recvs g (List.mem_of_mem_eraseIdx hg)

end Lemmas

/-- If no read is outstanding when `reset` goes on, no `recv` touches a later connection. -/
theorem isolated_of_reaches {s : State} (h : client.Reaches Meets s) : Isolated s := by
  have hinv : Bounded s ∧ (∀ k ∈ s.recvs, k = s.socket) ∧ Isolated s := by
    refine h.invariant (I := fun s => Bounded s ∧ (∀ k ∈ s.recvs, k = s.socket) ∧ Isolated s)
      ⟨bounded_initial, by simp [client, initial], by simp [Isolated, client, initial]⟩ ?_
    rintro s a s' ⟨hbounded, hcurrent, hisolated⟩ hmeets hs
    exact ⟨bounded_step hbounded hs, current_step hcurrent hmeets hs,
      isolated_step hbounded hcurrent hisolated hs⟩
  exact hinv.2.2

/-- A timer closes the connection, its `recv` leaves, and the client connects again. -/
theorem isolated_afterExit : ∃ s, client.runIf Meets initial
      [.connect, .connected, .sendRequest true, .timeout, .closeSocketAsync, .runClose, .exit 0,
        .connect, .reset true, .connected] = some s ∧ s.socket = 1 ∧ Isolated s := by
  have hrun : (client.runIf Meets initial
      [.connect, .connected, .sendRequest true, .timeout, .closeSocketAsync, .runClose, .exit 0,
        .connect, .reset true, .connected]).map State.socket = some 1 := by decide
  obtain ⟨s, hs, hsocket⟩ := Option.map_eq_some_iff.mp hrun
  exact ⟨s, hs, hsocket, isolated_of_reaches (reaches_of_runIf .init hs)⟩

/-- A `recv` whose read was outstanding when `reset` went on closes the new connection if it leaves
next. -/
theorem exists_not_isolated {s s' : State} (h : client.Reachable s) {initOk : Bool}
    (hs : step s (.reset initOk) = some s') {i : ℕ} (hi : i < s.recvs.length) :
    ∃ s'', step s' (.exit i) = some s'' ∧ ¬ Isolated s'' := by
  obtain ⟨-, hs⟩ := Option.ite_none_right_eq_some.mp hs
  obtain rfl := Option.some.inj hs
  have hget : s.recvs[i]? = some s.recvs[i] := List.getElem?_eq_getElem hi
  refine ⟨_, by rw [step, exit, hget, Option.map_some], fun hisolated => ?_⟩
  have hexit := hisolated _ (List.mem_append_right _ (List.mem_singleton_self _))
  have hle : s.socket + 1 ≤ s.recvs[i] := hexit.closed (s.socket + 1) rfl
  exact absurd ((bounded_of_reachable h).recvs _ (List.getElem_mem hi)) (Nat.not_le.mpr hle)

/-- The client connects again with a read outstanding: the exit of the old `recv` closes the new
socket. -/
theorem not_isolated_reconnect : ∃ s, client.Reachable s ∧
    s.exits = [⟨0, some 1, [], [⟨0, 0⟩]⟩] ∧ ¬ Isolated s := by
  have hrun : (client.runIf (fun _ _ => True) initial
      [.connect, .connected, .sendRequest true, .connect, .reset true, .exit 0]).map
        State.exits = some [⟨0, some 1, [], [⟨0, 0⟩]⟩] := by decide
  obtain ⟨s, hs, hexits⟩ := Option.map_eq_some_iff.mp hrun
  refine ⟨s, reaches_of_runIf .init hs, hexits, fun hisolated => ?_⟩
  have hexit := hisolated _ (hexits ▸ List.mem_singleton_self _)
  exact absurd (hexit.closed 1 rfl) (by decide)

end Yalantinglibs.CoroRpc.Reconnect
