import Mathlib.Tactic.Common
import Yalantinglibs.CoroRpc.ServerStop

/-!
# What stopping a server relies on

An acceptor that `stop` is done with is quiet: its loop has returned, or has not started and will
find the acceptor closed. So when `stop` takes the mutex, every connection is in the table or is
closed, and the table does not change any more. A connection that `stop` goes past is closed, or has
a task that will close it, or is being destroyed. While `stop` holds a reference, such a task holds
another one, so that the reference of `stop` is the last one only where the connection is closed.

## Main definitions

* `Conn.Covered` — a connection is closed or will be
* `Acceptor.Quiet` — no connection will come from an acceptor
* `Inv` — what holds of a server

## Main results

* `stop_leaves_no_connection` — what holds when `stop` comes to the pool
-/

set_option autoImplicit false

namespace Yalantinglibs.CoroRpc.ServerStop

open TransitionSystem

/-! ### A connection -/

/-- A connection is closed, or a task or a thread in `close` will close it. -/
def Conn.Handled (c : Conn) : Prop := c.hasClosed ∨ 0 < c.tasks ∨ 0 < c.checked

/-- A connection is closed, or a task, a thread in `close` or the destructor will close it. -/
def Conn.Covered (c : Conn) : Prop := c.Handled ∨ c.dtor ≠ .none

/-- What holds of a connection, to which `stop` may have a reference. -/
structure ConnInv (c : Conn) (pinned : Prop) : Prop where
  calling : 0 < c.calling → c.hasClosed
  dtor : c.dtor = .calling → c.hasClosed
  kept : c.launched → 0 < c.references ∨ pinned ∨ c.dtor ≠ .none

section Conn

variable {c c' : Conn} {pinned erased : Bool} {action : ConnAction}

theorem Conn.dropped_cases (c : Conn) (pinned : Bool) :
    (0 < c.references ∨ pinned) ∧ c.dropped pinned = c ∨
      c.dropped pinned = { c with dtor := .running } := by
  unfold Conn.dropped
  split
  case isTrue => exact .inr rfl
  case isFalse hkept =>
    left
    refine ⟨?_, rfl⟩
    by_contra hnone
    rw [not_or, Nat.not_lt, Nat.le_zero] at hnone
    exact hkept ⟨hnone.1, by simpa using hnone.2⟩

/-- What a step may do to a connection, apart from the references that it moves. -/
structure Conn.Moves (c c' : Conn) (pinned erased : Bool) : Prop where
  hasClosed : c.hasClosed → c'.hasClosed
  launched : c'.launched = c.launched
  tasks : 0 < c.tasks → 0 < c'.tasks ∨ 0 < c'.checked ∨ c'.hasClosed
  checked : 0 < c.checked → 0 < c'.checked ∨ c'.hasClosed
  calling : 0 < c'.calling → 0 < c.calling ∨ c'.hasClosed
  dtor : c.dtor ≠ .none → c'.dtor ≠ .none
  dtorCalling : c'.dtor = .calling → c.dtor = .calling ∨ c'.hasClosed
  references : 0 < c.references → 0 < c'.references ∨ pinned ∨ c'.dtor ≠ .none
  erased : erased → 0 < c.calling ∨ c.dtor = .calling

theorem Conn.moves (hstep : c.step pinned action = some (c', erased)) :
    c.Moves c' pinned erased := by
  cases action
  case drop =>
    simp only [Conn.step] at hstep
    split at hstep
    case isFalse => cases hstep
    case isTrue hheld =>
      cases hstep
      obtain ⟨hkept, heq⟩ | heq := Conn.dropped_cases { c with held := c.held - 1 } pinned
      · rw [heq]
        refine ⟨id, rfl, .inl, .inl, .inl, id, .inl, fun _ => ?_, nofun⟩
        rw [← or_assoc]
        exact .inl hkept
      · rw [heq]
        exact ⟨id, rfl, .inl, .inl, .inl, nofun, nofun, fun _ => .inr (.inr nofun), nofun⟩
  -- each of the other steps is an update of some fields under conditions on the old ones
  all_goals
    simp only [Conn.step] at hstep
    split at hstep <;> try split at hstep
    all_goals
      cases hstep
      try (constructor <;> simp_all [Conn.references] <;> omega)

theorem Conn.Handled.step (hhandled : c.Handled)
    (hstep : c.step pinned action = some (c', erased)) :
    c'.Handled := by
  have hmoves := Conn.moves hstep
  obtain hclosed | htasks | hchecked := hhandled
  · exact .inl (hmoves.hasClosed hclosed)
  · obtain htasks | hchecked | hclosed := hmoves.tasks htasks
    · exact .inr (.inl htasks)
    · exact .inr (.inr hchecked)
    · exact .inl hclosed
  · obtain hchecked | hclosed := hmoves.checked hchecked
    · exact .inr (.inr hchecked)
    · exact .inl hclosed

theorem Conn.Covered.step (hcovered : c.Covered)
    (hstep : c.step pinned action = some (c', erased)) :
    c'.Covered := by
  obtain hhandled | hdtor := hcovered
  · exact .inl (hhandled.step hstep)
  · exact .inr ((Conn.moves hstep).dtor hdtor)

theorem ConnInv.step (hinv : ConnInv c pinned) (hstep : c.step pinned action = some (c', erased)) :
    ConnInv c' pinned := by
  have hmoves := Conn.moves hstep
  refine ⟨fun hcalling => ?_, fun hcalling => ?_, fun hlaunched => ?_⟩
  · obtain hold | hclosed := hmoves.calling hcalling
    · exact hmoves.hasClosed (hinv.calling hold)
    · exact hclosed
  · obtain hold | hclosed := hmoves.dtorCalling hcalling
    · exact hmoves.hasClosed (hinv.dtor hold)
    · exact hclosed
  · rw [hmoves.launched] at hlaunched
    obtain hreferences | hpinned | hdtor := hinv.kept hlaunched
    · exact hmoves.references hreferences
    · exact .inr (.inl hpinned)
    · exact .inr (.inr (hmoves.dtor hdtor))

/-- What is taken out of the table is closed. -/
theorem ConnInv.closed_of_erased {P : Prop} (hinv : ConnInv c P)
    (hstep : c.step pinned action = some (c', true)) : c'.hasClosed := by
  have hmoves := Conn.moves hstep
  apply hmoves.hasClosed
  obtain hcalling | hcalling := hmoves.erased rfl
  · exact hinv.calling hcalling
  · exact hinv.dtor hcalling

end Conn

/-! ### The invariant -/

/-- No connection will come from the acceptor. -/
def Acceptor.Quiet (a : Acceptor) : Prop :=
  a.loop = .done ∨ a.closed ∧ (a.loop = .idle ∨ a.loop = .starting ∨ a.loop = .failed)

/-- A loop has a connection that is not in the table yet. -/
def Loop.Holds (id : ℕ) (loop : Loop) : Prop := loop = .accepted id ∨ loop = .built id

/-- The acceptors that `stop` is done with. -/
def Stop.below (n : ℕ) : Stop → ℕ
  | .notCalled => 0
  | .closeNow k | .closeDirect k | .closeWait k | .waiting k => k
  | .sweep _ | .pinned _ _ _ | .stuck _ | .poolStop => n

/-- The part of the table that `stop` has not gone through. -/
def Stop.left (table : List ℕ) : Stop → List ℕ
  | .sweep rest => rest
  | .pinned id rest _ => id :: rest
  | .stuck _ | .poolStop => []
  | .notCalled | .closeNow _ | .closeDirect _ | .closeWait _ | .waiting _ => table

/-- What `stop` knows where it stands. -/
def StopInv (s : State) : Prop :=
  match s.stop with
  | .closeWait k => (s.acceptors k).closed ∨ (s.acceptors k).acceptStarted
  | .pinned id _ .releasing => (s.conns id).Handled
  | .stuck _ => False
  | .poolStop => s.table = []
  | _ => True

/-- What holds of a server with `n` acceptors. -/
structure Inv (n : ℕ) (s : State) : Prop where
  conn : ∀ id, ConnInv (s.conns id) (s.stop.pins id)
  left : ∀ id ∈ s.stop.left s.table,
    (s.conns id).launched ∨ ∃ a < n, (s.acceptors a).loop = .registered id
  quiet : ∀ a < s.stop.below n, (s.acceptors a).Quiet
  covered : ∀ id < s.nextId, (∃ a < n, (s.acceptors a).loop.Holds id) ∨
    id ∈ s.stop.left s.table ∨ (s.conns id).Covered
  stop : StopInv s

theorem inv_initial {n : ℕ} : Inv n initial where
  conn := fun _ => ⟨nofun, nofun, nofun⟩
  left := nofun
  quiet := nofun
  covered := nofun
  stop := trivial

theorem StopInv.mono {s s' : State} (hinv : StopInv s) (hstop : s'.stop = s.stop)
    (hacceptor : ∀ k, (s.acceptors k).closed ∨ (s.acceptors k).acceptStarted →
      (s'.acceptors k).closed ∨ (s'.acceptors k).acceptStarted)
    (hconn : ∀ id, (s.conns id).Handled → (s'.conns id).Handled)
    (htable : s.stop = .poolStop → s.table = [] → s'.table = []) : StopInv s' := by
  unfold StopInv at *
  rw [hstop]
  cases hs : s.stop with
  | closeWait k =>
    rw [hs] at hinv
    exact hacceptor k hinv
  | pinned id rest pin =>
    rw [hs] at hinv
    cases pin with
    | releasing => exact hconn id hinv
    | locked => trivial
    | closing => trivial
  | stuck id =>
    rw [hs] at hinv
    exact hinv
  | poolStop =>
    rw [hs] at hinv
    exact htable hs hinv
  | _ => trivial

section Loops

variable {n a id : ℕ} {s s' : State} {loop : Loop}

theorem setLoop_acceptors (s : State) (a b : ℕ) (loop : Loop) :
    (s.setLoop a loop).acceptors b =
      if b = a then { s.acceptors a with loop } else s.acceptors b :=
  Function.update_apply ..

theorem setLoop_self : ((s.setLoop a loop).acceptors a).loop = loop := by
  rw [setLoop_acceptors, if_pos rfl]

theorem setLoop_of_ne {b : ℕ} (hne : b ≠ a) : (s.setLoop a loop).acceptors b = s.acceptors b := by
  rw [setLoop_acceptors, if_neg hne]

/-- The loop of an acceptor goes on from a place where it has no connection. -/
structure Goes (a : Acceptor) (loop : Loop) : Prop where
  quiet : a.Quiet → ({ a with loop } : Acceptor).Quiet
  ne_idle : loop ≠ .idle
  holds : ∀ id, ¬ a.loop.Holds id
  registered : ∀ id, a.loop ≠ .registered id

theorem Goes.acceptors_quiet (hgoes : Goes (s.acceptors a) loop) (b : ℕ)
    (hquiet : (s.acceptors b).Quiet) : ((s.setLoop a loop).acceptors b).Quiet := by
  by_cases hb : b = a
  · subst hb
    rw [setLoop_acceptors, if_pos rfl]
    exact hgoes.quiet hquiet
  · rwa [setLoop_of_ne hb]

theorem setLoop_closed_or_started (hne : loop ≠ .idle) (b : ℕ)
    (hb : (s.acceptors b).closed ∨ (s.acceptors b).acceptStarted) :
    ((s.setLoop a loop).acceptors b).closed ∨ ((s.setLoop a loop).acceptors b).acceptStarted := by
  by_cases heq : b = a
  · subst heq
    right
    rw [Acceptor.acceptStarted, setLoop_self]
    exact hne
  · rwa [setLoop_of_ne heq]

/-- The other loops keep what they have. -/
theorem exists_setLoop {P : Loop → Prop} (hnot : ¬ P (s.acceptors a).loop)
    (hexists : ∃ b < n, P (s.acceptors b).loop) :
    ∃ b < n, P ((s.setLoop a loop).acceptors b).loop := by
  obtain ⟨b, hb, hP⟩ := hexists
  refine ⟨b, hb, ?_⟩
  rwa [setLoop_of_ne]
  rintro rfl
  exact hnot hP

theorem Inv.setLoop (hinv : Inv n s) (hgoes : Goes (s.acceptors a) loop) :
    Inv n (s.setLoop a loop) where
  conn := hinv.conn
  left := by
    intro id hid
    obtain hlaunched | hregistered := hinv.left id hid
    · exact .inl hlaunched
    · exact .inr (exists_setLoop (P := fun l => l = .registered id) (hgoes.registered id) hregistered)
  quiet := fun b hb => hgoes.acceptors_quiet b (hinv.quiet b hb)
  covered := by
    intro id hid
    obtain hholds | hrest := hinv.covered id hid
    · exact .inl (exists_setLoop (hgoes.holds id) hholds)
    · exact .inr hrest
  stop := hinv.stop.mono rfl (setLoop_closed_or_started hgoes.ne_idle) (fun _ h => h)
    fun _ h => h

/-- A new connection is in the hands of its loop. -/
theorem Inv.acceptOk (hinv : Inv n s) (ha : a < n)
    (hgoes : Goes (s.acceptors a) (.accepted s.nextId)) :
    Inv n { s.setLoop a (.accepted s.nextId) with nextId := s.nextId + 1 } := by
  have hstep := hinv.setLoop hgoes
  refine ⟨hstep.conn, hstep.left, hstep.quiet, fun id hid => ?_, hstep.stop⟩
  obtain hlt | rfl := Nat.lt_succ_iff_lt_or_eq.mp hid
  · exact hstep.covered id hlt
  · refine .inl ⟨a, ha, ?_⟩
    change ((s.setLoop a (.accepted s.nextId)).acceptors a).loop.Holds s.nextId
    rw [setLoop_self]
    exact .inl rfl

/-- A loop with a connection in hand is not quiet. -/
theorem not_quiet (hloop : (s.acceptors a).loop = .accepted id ∨ (s.acceptors a).loop = .built id ∨
    (s.acceptors a).loop = .registered id) : ¬ (s.acceptors a).Quiet := by
  rintro (hdone | ⟨-, hidle | hstarting | hfailed⟩) <;> simp_all

end Loops

section Connections

variable {n a id : ℕ} {s s' : State} {loop : Loop} {c : Conn}

theorem setConn_self : (s.setConn id c).conns id = c := Function.update_self ..

theorem setConn_of_ne {id' : ℕ} (hne : id' ≠ id) : (s.setConn id c).conns id' = s.conns id' :=
  Function.update_of_ne hne ..

/-- What a connection keeps when it gets better. -/
theorem forall_setConn {P : ℕ → Conn → Prop} (hself : P id (s.conns id) → P id c)
    (hall : ∀ id', P id' (s.conns id')) (id' : ℕ) : P id' ((s.setConn id c).conns id') := by
  by_cases heq : id' = id
  · subst heq
    rw [setConn_self]
    exact hself (hall _)
  · rw [setConn_of_ne heq]
    exact hall id'

theorem setConn_mono {P : Conn → Prop} (hself : P (s.conns id) → P c) {id' : ℕ}
    (hP : P (s.conns id')) : P ((s.setConn id c).conns id') := by
  by_cases heq : id' = id
  · subst heq
    rw [setConn_self]
    exact hself hP
  · rwa [setConn_of_ne heq]

/-- A connection changes for the better. -/
theorem Inv.setConn (hinv : Inv n s) (hconn : ConnInv c (s.stop.pins id))
    (hlaunched : (s.conns id).launched → c.launched)
    (hhandled : (s.conns id).Handled → c.Handled) (hcovered : (s.conns id).Covered → c.Covered) :
    Inv n (s.setConn id c) where
  conn := forall_setConn (P := fun id' c => ConnInv c (s.stop.pins id')) (fun _ => hconn) hinv.conn
  left := by
    intro id' hid
    obtain hold | hregistered := hinv.left id' hid
    · exact .inl (setConn_mono (P := fun c => c.launched) hlaunched hold)
    · exact .inr hregistered
  quiet := hinv.quiet
  covered := by
    intro id' hid
    obtain hholds | hleft | hold := hinv.covered id' hid
    · exact .inl hholds
    · exact .inr (.inl hleft)
    · exact .inr (.inr (setConn_mono (P := Conn.Covered) hcovered hold))
  stop := hinv.stop.mono rfl (fun _ h => h)
    (fun _ h => setConn_mono (P := Conn.Handled) hhandled h) fun _ h => h

/-- A loop hands its connection on. -/
theorem Inv.connLoop (hinv : Inv n s) (hnot : ¬ (s.acceptors a).Quiet) (hidle : loop ≠ .idle)
    (hconn : ∀ P, ConnInv (s.conns id) P → ConnInv c P)
    (hhandled : (s.conns id).Handled → c.Handled) (hcovered : (s.conns id).Covered → c.Covered)
    (hlaunched : (s.conns id).launched → c.launched)
    (hregistered : ∀ id', (s.acceptors a).loop = .registered id' → id' = id ∧ c.launched)
    (hholds : ∀ id', (s.acceptors a).loop.Holds id' → id' = id ∧ (c.Covered ∨ loop = .built id))
    (ha : a < n) : Inv n ((s.setLoop a loop).setConn id c) where
  conn := forall_setConn (P := fun id' c => ConnInv c (s.stop.pins id')) (hconn _) hinv.conn
  left := by
    intro id' hid
    obtain hold | ⟨b, hb, hloop⟩ := hinv.left id' hid
    · exact .inl (setConn_mono (P := fun c => c.launched) hlaunched hold)
    · by_cases heq : b = a
      · subst heq
        obtain ⟨rfl, hc⟩ := hregistered id' hloop
        left
        rw [setConn_self]
        exact hc
      · refine .inr ⟨b, hb, ?_⟩
        change ((s.setLoop a loop).acceptors b).loop = _
        rwa [setLoop_of_ne heq]
  quiet := by
    intro b hb
    change ((s.setLoop a loop).acceptors b).Quiet
    rw [setLoop_of_ne]
    · exact hinv.quiet b hb
    · rintro rfl
      exact hnot (hinv.quiet b hb)
  covered := by
    intro id' hid
    obtain ⟨b, hb, hloop⟩ | hleft | hold := hinv.covered id' hid
    · by_cases heq : b = a
      · subst heq
        obtain ⟨rfl, hc | hc⟩ := hholds id' hloop
        · right
          right
          rw [setConn_self]
          exact hc
        · refine .inl ⟨b, hb, .inr ?_⟩
          change ((s.setLoop b loop).acceptors b).loop = _
          rw [setLoop_self, hc]
      · refine .inl ⟨b, hb, ?_⟩
        change ((s.setLoop a loop).acceptors b).loop.Holds id'
        rwa [setLoop_of_ne heq]
    · exact .inr (.inl hleft)
    · exact .inr (.inr (setConn_mono (P := Conn.Covered) hcovered hold))
  stop := hinv.stop.mono rfl (setLoop_closed_or_started hidle)
    (fun _ h => setConn_mono (P := Conn.Handled) hhandled h) fun _ h => h

/-- Where a loop is not quiet, `stop` has not come to the table. -/
theorem Inv.left_eq_table (hinv : Inv n s) (ha : a < n) (hnot : ¬ (s.acceptors a).Quiet)
    (table : List ℕ) : s.stop.left table = table ∧ s.stop ≠ .poolStop := by
  have hbelow : ¬ a < s.stop.below n := fun hlt => hnot (hinv.quiet a hlt)
  cases hs : s.stop with
  | sweep | pinned | stuck | poolStop =>
    rw [hs] at hbelow
    exact absurd ha hbelow
  | _ => exact ⟨rfl, by simp⟩

/-- A connection is put into the table. -/
theorem Inv.register (hinv : Inv n s) (ha : a < n) (hloop : (s.acceptors a).loop = .built id) :
    Inv n { s.setLoop a (.registered id) with table := id :: s.table } := by
  have hnot : ¬ (s.acceptors a).Quiet := not_quiet (.inr (.inl hloop))
  obtain ⟨hleft, hpool⟩ := hinv.left_eq_table ha hnot s.table
  obtain ⟨hleft', -⟩ := hinv.left_eq_table ha hnot (id :: s.table)
  refine ⟨hinv.conn, fun id' hid => ?_, fun b hb => ?_, fun id' hid => ?_, ?_⟩
  · change id' ∈ s.stop.left (id :: s.table) at hid
    rw [hleft'] at hid
    obtain rfl | hid := List.mem_cons.mp hid
    · exact .inr ⟨a, ha, setLoop_self⟩
    · rw [← hleft] at hid
      obtain hlaunched | hregistered := hinv.left id' hid
      · exact .inl hlaunched
      · refine .inr (exists_setLoop (P := fun l => l = .registered id') ?_ hregistered)
        rw [hloop]
        simp
  · change ((s.setLoop a (.registered id)).acceptors b).Quiet
    rw [setLoop_of_ne]
    · exact hinv.quiet b hb
    · rintro rfl
      exact hnot (hinv.quiet b hb)
  · change _ ∨ id' ∈ s.stop.left (id :: s.table) ∨ _
    rw [hleft']
    obtain ⟨b, hb, hholds⟩ | hmem | hcovered := hinv.covered id' hid
    · by_cases heq : b = a
      · subst heq
        rw [hloop] at hholds
        obtain hholds | hholds := hholds
        · cases hholds
        · cases hholds
          exact .inr (.inl (List.mem_cons_self ..))
      · refine .inl ⟨b, hb, ?_⟩
        change ((s.setLoop a (.registered id)).acceptors b).loop.Holds id'
        rwa [setLoop_of_ne heq]
    · rw [hleft] at hmem
      exact .inr (.inl (List.mem_cons_of_mem _ hmem))
    · exact .inr (.inr hcovered)
  · exact hinv.stop.mono rfl (setLoop_closed_or_started (by simp)) (fun _ h => h)
      fun hpool' => absurd hpool' hpool

/-- The acceptors change, but not where their loops stand. -/
theorem Inv.setAcceptors {acceptors : ℕ → Acceptor} (hinv : Inv n s)
    (hloop : ∀ b, (acceptors b).loop = (s.acceptors b).loop)
    (hclosed : ∀ b, (s.acceptors b).closed → (acceptors b).closed) :
    Inv n { s with acceptors } := by
  refine ⟨hinv.conn, fun id hid => ?_, fun b hb => ?_, fun id hid => ?_, ?_⟩
  · simp only [hloop]
    exact hinv.left id hid
  · obtain hdone | ⟨hb, hquiet⟩ := hinv.quiet b hb
    · exact .inl ((hloop b).trans hdone)
    · refine .inr ⟨hclosed b hb, ?_⟩
      rwa [hloop]
  · simp only [hloop]
    exact hinv.covered id hid
  · refine hinv.stop.mono rfl (fun b hb => ?_) (fun _ h => h) fun _ h => h
    simp only [Acceptor.acceptStarted, hloop]
    obtain hb | hb := hb
    · exact .inl (hclosed b hb)
    · exact .inr hb

/-- The acceptor is closed. -/
theorem Inv.closeAcceptor (hinv : Inv n s) : Inv n (s.closeAcceptor a) := by
  apply hinv.setAcceptors <;> intro b
  · rw [Function.update_apply]
    split
    case isTrue heq => rw [heq]
    case isFalse => rfl
  · intro hb
    rw [Function.update_apply]
    split
    case isTrue => rfl
    case isFalse => exact hb

/-- The task of `close_now` is dispatched. -/
theorem Inv.dispatchClose (hinv : Inv n s) (a : ℕ) : Inv n { s with
    acceptors := Function.update s.acceptors a { s.acceptors a with closing := true } } := by
  apply hinv.setAcceptors <;> intro b <;> rw [Function.update_apply] <;> split
  case isTrue heq => rw [heq]
  case isFalse => rfl
  case isTrue heq =>
    rw [heq]
    exact id
  case isFalse => exact id

theorem mem_left_of_filter {stop : Stop} {table : List ℕ} {id' : ℕ} {p : ℕ → Bool}
    (hmem : id' ∈ stop.left (table.filter p)) : id' ∈ stop.left table := by
  cases stop with
  | sweep | pinned | stuck | poolStop => exact hmem
  | _ => exact (List.mem_filter.mp hmem).1

theorem mem_left_filter {stop : Stop} {table : List ℕ} {id' : ℕ} (id : ℕ)
    (hmem : id' ∈ stop.left table) : id' = id ∨ id' ∈ stop.left (table.filter (· ≠ id)) := by
  cases stop with
  | sweep | pinned | stuck | poolStop => exact .inr hmem
  | _ =>
    by_cases heq : id' = id
    · exact .inl heq
    · exact .inr (List.mem_filter.mpr ⟨hmem, decide_eq_true heq⟩)

/-- A step of a connection. -/
theorem Inv.connStep {action : ConnAction} (hinv : Inv n s)
    (hstep : s.connStep id action = some s') : Inv n s' := by
  unfold State.connStep at hstep
  cases hc : (s.conns id).step (s.stop.pins id) action with
  | none =>
    rw [hc] at hstep
    cases hstep
  | some result =>
    obtain ⟨c, erased⟩ := result
    have hinvC : ConnInv c (s.stop.pins id) := by
      have hold := hinv.conn id
      rw [← decide_eq_true_iff (p := s.stop.pins id)] at hold ⊢
      exact hold.step hc
    have hset : Inv n (s.setConn id c) :=
      hinv.setConn hinvC (fun h => by rwa [(Conn.moves hc).launched]) (fun h => h.step hc)
        fun h => h.step hc
    rw [hc] at hstep
    cases erased with
    | false =>
      cases hstep
      exact hset
    | true =>
      simp only at hstep
      split at hstep
      case isTrue => cases hstep
      case isFalse hmutex =>
        cases hstep
        have hclosed : c.hasClosed := (hinv.conn id).closed_of_erased hc
        refine ⟨hset.conn, fun id' hid => ?_, hset.quiet, fun id' hid => ?_, ?_⟩
        · exact hset.left id' (mem_left_of_filter hid)
        · obtain hholds | hleft | hcovered := hset.covered id' hid
          · exact .inl hholds
          · obtain rfl | hleft := mem_left_filter id hleft
            · refine .inr (.inr ?_)
              change ((s.setConn id' c).conns id').Covered
              rw [setConn_self]
              exact .inl (.inl hclosed)
            · exact .inr (.inl hleft)
          · exact .inr (.inr hcovered)
        · refine hset.stop.mono rfl (fun _ h => h) (fun _ h => h) fun _ hnil => ?_
          exact List.filter_eq_nil_iff.mpr fun x hx => by
            rw [show s.table = [] from hnil] at hx
            cases hx

end Connections

section Sweep

variable {n id : ℕ} {s s' : State} {rest : List ℕ}

/-- `stop` goes on, without a connection. -/
theorem Inv.setStop {stop : Stop} (hinv : Inv n s)
    (hpins : ∀ id, s.stop.pins id →
      stop.pins id ∨ 0 < (s.conns id).references ∨ (s.conns id).dtor ≠ .none)
    (hleft : ∀ id, id ∈ stop.left s.table → id ∈ s.stop.left s.table)
    (hcovered : ∀ id ∈ s.stop.left s.table, id ∈ stop.left s.table ∨ (s.conns id).Covered)
    (hquiet : ∀ a < stop.below n, (s.acceptors a).Quiet)
    (hstop : StopInv { s with stop }) : Inv n { s with stop } where
  conn := fun id' => ⟨(hinv.conn id').calling, (hinv.conn id').dtor, fun hlaunched => by
    obtain hreferences | hpinned | hdtor := (hinv.conn id').kept hlaunched
    · exact .inl hreferences
    · obtain hpinned | hreferences | hdtor := hpins id' hpinned
      · exact .inr (.inl hpinned)
      · exact .inl hreferences
      · exact .inr (.inr hdtor)
    · exact .inr (.inr hdtor)⟩
  left := fun id' hid => hinv.left id' (hleft id' hid)
  quiet := hquiet
  covered := by
    intro id' hid
    obtain hholds | hmem | hold := hinv.covered id' hid
    · exact .inl hholds
    · exact .inr (hcovered id' hmem)
    · exact .inr (.inr hold)
  stop := hstop

/-- Every connection that `stop` goes through has been started. -/
theorem Inv.launched (hinv : Inv n s) (hbelow : s.stop.below n = n)
    (hid : id ∈ s.stop.left s.table) : (s.conns id).launched := by
  obtain hlaunched | ⟨a, ha, hloop⟩ := hinv.left id hid
  · exact hlaunched
  · rw [← hbelow] at ha
    exact absurd (hinv.quiet a ha) (not_quiet (.inr (.inr hloop)))

/-- Before the mutex, `stop` has nothing of the table. -/
theorem Inv.setEarly {stop : Stop} (hinv : Inv n s) (hold : ∀ table, s.stop.left table = table)
    (hnew : ∀ table, stop.left table = table) (hpins : ∀ id, ¬ s.stop.pins id)
    (hquiet : ∀ a < stop.below n, (s.acceptors a).Quiet) (hstop : StopInv { s with stop }) :
    Inv n { s with stop } := by
  refine hinv.setStop (fun id h => absurd h (hpins id)) (fun id h => ?_) (fun id h => ?_) hquiet hstop
  · rw [hold]
    rwa [hnew] at h
  · rw [hnew]
    rw [hold] at h
    exact .inl h

/-- `stop` closes the acceptors. -/
theorem Inv.stopStep_acceptors {k : ℕ} (hinv : Inv n s) (hstep : s.stopStep n id = some s')
    (hs : s.stop = .closeNow k ∨ s.stop = .closeDirect k ∨ s.stop = .closeWait k ∨
      s.stop = .waiting k) : Inv n s' := by
  have hquiet : ∀ a < k, (s.acceptors a).Quiet := by
    intro a ha
    apply hinv.quiet
    obtain hs | hs | hs | hs := hs <;> rw [hs] <;> exact ha
  have hquiet' : (s.acceptors k).Quiet → ∀ a < k + 1, (s.acceptors a).Quiet := by
    intro hk a ha
    obtain hlt | rfl := Nat.lt_succ_iff_lt_or_eq.mp ha
    · exact hquiet a hlt
    · exact hk
  have hstop := hinv.stop
  unfold State.stopStep at hstep
  unfold StopInv at hstop
  obtain hs | hs | hs | hs := hs <;> rw [hs] at hstep hstop <;> simp only at hstep
  · -- `close_now` looks whether the loop has started
    split at hstep
    case isTrue =>
      split at hstep
      case isTrue hstarted =>
        cases hstep
        have hset := hinv.dispatchClose k
        refine hset.setEarly (by simp [hs, Stop.left]) (by simp [Stop.left])
          (by simp [hs, Stop.pins]) (fun a ha => hset.quiet a ?_) (.inr ?_)
        · simp only [hs]
          exact ha
        · simp only [Acceptor.acceptStarted, Function.update_self]
          exact hstarted
      case isFalse =>
        cases hstep
        exact hinv.setEarly (by simp [hs, Stop.left]) (by simp [Stop.left])
          (by simp [hs, Stop.pins]) hquiet trivial
    case isFalse hk =>
      cases hstep
      have hall : ∀ a < n, (s.acceptors a).Quiet :=
        fun a ha => hquiet a (lt_of_lt_of_le ha (Nat.le_of_not_lt hk))
      exact hinv.setStop (by simp [hs, Stop.pins]) (fun id h => by rwa [hs])
        (fun id h => .inl (by rwa [hs] at h)) hall trivial
  · cases hstep
    have hset := hinv.closeAcceptor (a := k)
    refine hset.setEarly (by simp [State.closeAcceptor, hs, Stop.left]) (by simp [Stop.left])
      (by simp [State.closeAcceptor, hs, Stop.pins]) (fun a ha => hset.quiet a ?_) (.inl ?_)
    · simp only [State.closeAcceptor, hs]
      exact ha
    · simp only [State.closeAcceptor, Function.update_self]
  · split at hstep
    case isTrue =>
      cases hstep
      exact hinv.setEarly (by simp [hs, Stop.left]) (by simp [Stop.left])
        (by simp [hs, Stop.pins]) hquiet trivial
    case isFalse hidle =>
      cases hstep
      refine hinv.setEarly (by simp [hs, Stop.left]) (by simp [Stop.left])
        (by simp [hs, Stop.pins]) (hquiet' (.inr ⟨?_, ?_⟩)) trivial
      · exact hstop.resolve_right hidle
      · exact .inl (not_not.mp hidle)
  · split at hstep
    case isTrue hdone =>
      cases hstep
      exact hinv.setEarly (by simp [hs, Stop.left]) (by simp [Stop.left])
        (by simp [hs, Stop.pins]) (hquiet' (.inl hdone)) trivial
    case isFalse => cases hstep

/-- `stop` takes a connection of the table. -/
theorem Inv.stopStep_sweep (hinv : Inv n s) (hstep : s.stopStep n id = some s')
    (hs : s.stop = .sweep rest) : Inv n s' := by
  have hleft : ∀ table, s.stop.left table = rest := by simp [hs, Stop.left]
  have hpins : ∀ id, ¬ s.stop.pins id := by simp [hs, Stop.pins]
  have hquiet : ∀ a < n, (s.acceptors a).Quiet := by
    intro a ha
    apply hinv.quiet
    rw [hs]
    exact ha
  unfold State.stopStep at hstep
  rw [hs] at hstep
  simp only at hstep
  split at hstep
  case isTrue hnil =>
    cases hstep
    subst hnil
    refine ⟨fun id' => ⟨(hinv.conn id').calling, (hinv.conn id').dtor, fun hlaunched => ?_⟩,
      nofun, hquiet, fun id' hid => ?_, rfl⟩
    · obtain hreferences | hpinned | hdtor := (hinv.conn id').kept hlaunched
      · exact .inl hreferences
      · exact absurd hpinned (hpins id')
      · exact .inr (.inr hdtor)
    · obtain hholds | hmem | hcovered := hinv.covered id' hid
      · exact .inl hholds
      · rw [hleft] at hmem
        cases hmem
      · exact .inr (.inr hcovered)
  case isFalse =>
    split at hstep
    case isFalse => cases hstep
    case isTrue hid =>
      split at hstep
      case isTrue =>
        cases hstep
        refine hinv.setStop (fun id h => absurd h (hpins id)) (fun id' hid' => ?_)
          (fun id' hid' => ?_) hquiet trivial
        · rw [hleft]
          obtain rfl | hid' := List.mem_cons.mp hid'
          · exact hid
          · exact List.mem_of_mem_erase hid'
        · rw [hleft] at hid'
          left
          by_cases heq : id' = id
          · exact heq ▸ List.mem_cons_self ..
          · exact List.mem_cons_of_mem _ ((List.mem_erase_of_ne heq).mpr hid')
      case isFalse hnone =>
        -- the last reference is gone, so the destructor has begun
        cases hstep
        have hlaunched : (s.conns id).launched :=
          hinv.launched (by rw [hs]; rfl) (by rwa [hleft])
        have hdtor : (s.conns id).dtor ≠ .none := by
          obtain hreferences | hpinned | hdtor := (hinv.conn id).kept hlaunched
          · exact absurd hreferences hnone
          · exact absurd hpinned (hpins id)
          · exact hdtor
        refine hinv.setStop (fun id h => absurd h (hpins id)) (fun id' hid' => ?_)
          (fun id' hid' => ?_) hquiet trivial
        · rw [hleft]
          exact List.mem_of_mem_erase hid'
        · rw [hleft] at hid'
          by_cases heq : id' = id
          · exact .inr (heq ▸ .inr hdtor)
          · exact .inl ((List.mem_erase_of_ne heq).mpr hid')

/-- `stop` closes a connection of the table. -/
theorem Inv.stopStep_pinned {id' : ℕ} {pin : Pin} (hinv : Inv n s)
    (hstep : s.stopStep n id = some s') (hs : s.stop = .pinned id' rest pin) : Inv n s' := by
  have hquiet : ∀ a < n, (s.acceptors a).Quiet := by
    intro a ha
    apply hinv.quiet
    rw [hs]
    exact ha
  -- the reference and the rest of the table stay while `stop` looks at the connection
  have hkeep : ∀ pin', StopInv { s with stop := .pinned id' rest pin' } →
      Inv n { s with stop := .pinned id' rest pin' } := by
    intro pin' hstop
    exact hinv.setStop (fun id h => .inl (by rwa [hs] at h)) (fun id h => by rwa [hs])
      (fun id h => .inl (by rwa [hs] at h)) hquiet hstop
  unfold State.stopStep at hstep
  rw [hs] at hstep
  cases pin with
  | locked =>
    simp only at hstep
    split at hstep
    case isTrue hclosed =>
      cases hstep
      exact hkeep .releasing (.inl hclosed)
    case isFalse =>
      cases hstep
      exact hkeep .closing trivial
  | closing =>
    simp only at hstep
    split at hstep
    case isTrue hclosed =>
      cases hstep
      exact hkeep .releasing (.inl hclosed)
    case isFalse =>
      cases hstep
      have hhandled : ({ s.conns id' with tasks := (s.conns id').tasks + 1 } : Conn).Handled :=
        .inr (.inl (Nat.succ_pos _))
      have hset : Inv n
          (s.setConn id' { s.conns id' with tasks := (s.conns id').tasks + 1 }) :=
        hinv.setConn
          ⟨(hinv.conn id').calling, (hinv.conn id').dtor, fun _ => .inl (Nat.succ_pos _)⟩
          (fun h => h) (fun _ => hhandled) fun _ => .inl hhandled
      refine hset.setStop (fun id h => .inl ?_) (fun id h => ?_) (fun id h => .inl ?_) hquiet ?_
      · change s.stop.pins id at h
        rwa [hs] at h
      · change id ∈ s.stop.left s.table
        rwa [hs]
      · change id ∈ s.stop.left s.table at h
        rwa [hs] at h
      · change ((s.setConn id' _).conns id').Handled
        rw [setConn_self]
        exact hhandled
  | releasing =>
    have hhandled : (s.conns id').Handled := by
      have hstop := hinv.stop
      unfold StopInv at hstop
      rw [hs] at hstop
      exact hstop
    simp only at hstep
    split at hstep
    case isTrue hreferences =>
      cases hstep
      refine hinv.setStop (fun id h => .inr (.inl ?_)) (fun id h => ?_) (fun id h => ?_) hquiet
        trivial
      · rw [hs] at h
        rw [← show id' = id from h]
        exact hreferences
      · rw [hs]
        exact List.mem_cons_of_mem _ h
      · rw [hs] at h
        obtain rfl | h := List.mem_cons.mp h
        · exact .inr (.inl hhandled)
        · exact .inl h
    case isFalse hlast =>
      -- no task and no thread in `close` is left, so the connection is closed
      have hclosed : (s.conns id').hasClosed := by
        obtain hclosed | htasks | hchecked := hhandled
        · exact hclosed
        · refine absurd ?_ hlast
          unfold Conn.references
          omega
        · refine absurd ?_ hlast
          unfold Conn.references
          omega
      rw [if_pos hclosed] at hstep
      cases hstep
      have hset : Inv n (s.setConn id' { s.conns id' with dtor := .finished }) :=
        hinv.setConn ⟨(hinv.conn id').calling, nofun, fun _ => .inr (.inr nofun)⟩ (fun h => h)
          (fun h => h) fun _ => .inr nofun
      refine hset.setStop (fun id h => .inr (.inr ?_)) (fun id h => ?_) (fun id h => ?_) hquiet
        trivial
      · change s.stop.pins id at h
        rw [hs] at h
        rw [← show id' = id from h, setConn_self]
        exact nofun
      · change id ∈ s.stop.left s.table
        rw [hs]
        exact List.mem_cons_of_mem _ h
      · change id ∈ s.stop.left s.table at h
        rw [hs] at h
        obtain rfl | h := List.mem_cons.mp h
        · rw [setConn_self]
          exact .inr (.inr nofun)
        · exact .inl h

/-- `stop` takes its next step. -/
theorem Inv.stopStep (hinv : Inv n s) (hstep : s.stopStep n id = some s') : Inv n s' := by
  cases hs : s.stop with
  | notCalled =>
    unfold State.stopStep at hstep
    rw [hs] at hstep
    cases hstep
    exact hinv.setEarly (by simp [hs, Stop.left]) (by simp [Stop.left]) (by simp [hs, Stop.pins])
      (fun a ha => absurd ha (Nat.not_lt_zero a)) trivial
  | closeNow k => exact hinv.stopStep_acceptors hstep (.inl hs)
  | closeDirect k => exact hinv.stopStep_acceptors hstep (.inr (.inl hs))
  | closeWait k => exact hinv.stopStep_acceptors hstep (.inr (.inr (.inl hs)))
  | waiting k => exact hinv.stopStep_acceptors hstep (.inr (.inr (.inr hs)))
  | sweep rest => exact hinv.stopStep_sweep hstep hs
  | pinned id' rest pin => exact hinv.stopStep_pinned hstep hs
  | stuck id' =>
    unfold State.stopStep at hstep
    rw [hs] at hstep
    cases hstep
  | poolStop =>
    unfold State.stopStep at hstep
    rw [hs] at hstep
    cases hstep

end Sweep

/-! ### Runs -/

section Runs

variable {n : ℕ} {s s' : State} {action : Action}

theorem goes_of_loop {a : Acceptor} {old loop : Loop} (ha : a.loop = old)
    (hquiet : a.Quiet → ({ a with loop } : Acceptor).Quiet) (hidle : loop ≠ .idle)
    (hold : ∀ id, ¬ old.Holds id ∧ old ≠ .registered id) : Goes a loop :=
  ⟨hquiet, hidle, fun id => ha ▸ (hold id).1, fun id => ha ▸ (hold id).2⟩

/-- A quiet loop that has not returned has found the acceptor closed, or will. -/
theorem Acceptor.Quiet.closed {a : Acceptor} (hquiet : a.Quiet) (hdone : a.loop ≠ .done) :
    a.closed := by
  obtain hloop | ⟨hclosed, -⟩ := hquiet
  · exact absurd hloop hdone
  · exact hclosed

theorem not_quiet_accepting {a : Acceptor} (ha : a.loop = .accepting) : ¬ a.Quiet := by
  rintro (hdone | ⟨-, hidle | hstarting | hfailed⟩) <;> simp_all

/-- An outstanding `async_accept` completes. -/
theorem goes_of_accepting {a : Acceptor} {loop : Loop} (ha : a.loop = .accepting)
    (hidle : loop ≠ .idle) : Goes a loop :=
  goes_of_loop ha (fun hquiet => absurd hquiet (not_quiet_accepting ha)) hidle
    (by simp [Loop.Holds])

theorem Inv.step (hinv : Inv n s) (hstep : step n s action = some s') : Inv n s' := by
  cases action with
  | startAccept a =>
    obtain ⟨⟨-, hloop⟩, heq⟩ := Option.ite_none_right_eq_some.mp hstep
    cases heq
    apply hinv.setLoop
    apply goes_of_loop hloop (fun hquiet => ?_) (by simp) (by simp [Loop.Holds])
    exact .inr ⟨hquiet.closed (by simp [hloop]), .inr (.inl rfl)⟩
  | callAccept a =>
    obtain ⟨⟨-, hloop⟩, heq⟩ := Option.ite_none_right_eq_some.mp hstep
    cases heq
    apply hinv.setLoop
    apply goes_of_loop hloop (fun hquiet => ?_) (by split <;> simp) (by simp [Loop.Holds])
    have hclosed := hquiet.closed (by simp [hloop])
    rw [if_pos hclosed]
    exact .inr ⟨hclosed, .inr (.inr rfl)⟩
  | acceptOk a =>
    obtain ⟨⟨ha, hloop⟩, heq⟩ := Option.ite_none_right_eq_some.mp hstep
    cases heq
    exact hinv.acceptOk ha (goes_of_accepting hloop (by simp))
  | acceptError a =>
    obtain ⟨⟨-, hloop⟩, heq⟩ := Option.ite_none_right_eq_some.mp hstep
    cases heq
    exact hinv.setLoop (goes_of_accepting hloop (by simp))
  | acceptAborted a =>
    obtain ⟨⟨-, hloop, -⟩, heq⟩ := Option.ite_none_right_eq_some.mp hstep
    cases heq
    exact hinv.setLoop (goes_of_accepting hloop (by simp))
  | reject a =>
    simp only [ServerStop.step] at hstep
    split at hstep
    case h_2 => cases hstep
    case h_1 id hloop =>
      obtain ⟨ha, heq⟩ := Option.ite_none_right_eq_some.mp hstep
      cases heq
      have hclosed : ({ s.conns id with hasClosed := true } : Conn).Handled := .inl rfl
      refine hinv.connLoop (not_quiet (.inl hloop)) (by simp)
        (fun P hconn => ⟨fun _ => rfl, fun _ => rfl, hconn.kept⟩) (fun _ => hclosed)
        (fun _ => .inl hclosed) (fun h => h) (fun id' h => ?_) (fun id' h => ?_) ha
      · rw [hloop] at h
        cases h
      · rw [hloop] at h
        obtain h | h := h
        · cases h
          exact ⟨rfl, .inl (.inl hclosed)⟩
        · cases h
  | build a =>
    simp only [ServerStop.step] at hstep
    split at hstep
    case h_2 => cases hstep
    case h_1 id hloop =>
      obtain ⟨ha, heq⟩ := Option.ite_none_right_eq_some.mp hstep
      cases heq
      refine hinv.connLoop (not_quiet (.inl hloop)) (by simp)
        (fun P hconn => ⟨hconn.calling, hconn.dtor, fun _ => .inl ?_⟩) (fun h => h) (fun h => h)
        (fun h => h) (fun id' h => ?_) (fun id' h => ?_) ha
      · unfold Conn.references
        simp only
        omega
      · rw [hloop] at h
        cases h
      · rw [hloop] at h
        obtain h | h := h
        · cases h
          exact ⟨rfl, .inr rfl⟩
        · cases h
  | register a =>
    simp only [ServerStop.step] at hstep
    split at hstep
    case h_2 => cases hstep
    case h_1 id hloop =>
      obtain ⟨⟨ha, -⟩, heq⟩ := Option.ite_none_right_eq_some.mp hstep
      cases heq
      exact hinv.register ha hloop
  | launch a =>
    simp only [ServerStop.step] at hstep
    split at hstep
    case h_2 => cases hstep
    case h_1 id hloop =>
      obtain ⟨ha, heq⟩ := Option.ite_none_right_eq_some.mp hstep
      cases heq
      refine hinv.connLoop (not_quiet (.inr (.inr hloop))) (by simp)
        (fun P hconn => ⟨hconn.calling, hconn.dtor, fun _ => .inl ?_⟩) (fun h => h) (fun h => h)
        (fun _ => rfl) (fun id' h => ?_) (fun id' h => ?_) ha
      · unfold Conn.references
        simp only
        omega
      · rw [hloop] at h
        cases h
        exact ⟨rfl, rfl⟩
      · rw [hloop] at h
        obtain h | h := h <;> cases h
  | setValue a =>
    obtain ⟨⟨-, hloop⟩, heq⟩ := Option.ite_none_right_eq_some.mp hstep
    cases heq
    apply hinv.setLoop
    exact goes_of_loop hloop (fun _ => .inl rfl) (by simp) (by simp [Loop.Holds])
  | runClose a =>
    obtain ⟨-, heq⟩ := Option.ite_none_right_eq_some.mp hstep
    cases heq
    exact hinv.closeAcceptor
  | conn id action => exact hinv.connStep hstep
  | stop id => exact hinv.stopStep hstep

theorem inv_of_reachable (hreach : (system n).Reachable s) : Inv n s :=
  hreach.invariant inv_initial fun _ _ _ hinv _ hstep => Inv.step hinv hstep

theorem connStep_stop {id : ℕ} {act : ConnAction} (hstep : s.connStep id act = some s') :
    s'.stop = s.stop := by
  unfold State.connStep at hstep
  split at hstep
  · cases hstep
  · cases hstep
    rfl
  · split at hstep
    · cases hstep
    · cases hstep
      rfl

/-- The pool is the last that `stop` comes to. -/
theorem poolStop_stays (hs : s.stop = .poolStop) (hstep : step n s action = some s') :
    s'.stop = .poolStop := by
  cases action with
  | conn id action => rw [connStep_stop hstep, hs]
  | stop id =>
    change s.stopStep n id = some s' at hstep
    unfold State.stopStep at hstep
    rw [hs] at hstep
    cases hstep
  | reject a | build a | register a | launch a =>
    simp only [ServerStop.step] at hstep
    split at hstep
    · obtain ⟨-, heq⟩ := Option.ite_none_right_eq_some.mp hstep
      cases heq
      exact hs
    · cases hstep
  | _ =>
    obtain ⟨-, heq⟩ := Option.ite_none_right_eq_some.mp hstep
    cases heq
    exact hs

end Runs

/-! ### The pool is stopped -/

/-- The states that come after a state. -/
def Later (n : ℕ) (s : State) : State → Prop := (⟨s, step n⟩ : TransitionSystem _ _).Reachable

/-- What should hold when `stop` comes to the pool, where a connection is done with as `Done`
says. -/
structure Stopped (Done : Conn → Prop) (n : ℕ) (s : State) : Prop where
  connections : ∀ id < s.nextId, ¬ (s.conns id).transferred → Done (s.conns id)
  noRegister : ∀ s', Later n s s' → ∀ a, step n s' (.register a) = none
  alive : ∀ id ∈ s.table, 0 < (s.conns id).references

section Stopped

variable {n : ℕ} {s s' : State}

theorem Inv.of_later (hinv : Inv n s) (hs : s.stop = .poolStop) (hlater : Later n s s') :
    Inv n s' ∧ s'.stop = .poolStop := by
  unfold Later at hlater
  refine hlater.invariant (I := fun s => Inv n s ∧ s.stop = .poolStop) ⟨hinv, hs⟩ ?_
  rintro s action s' ⟨hinv, hs⟩ - hstep
  exact ⟨hinv.step hstep, poolStop_stays hs hstep⟩

/-- Once `stop` has come to the pool, no loop puts a connection into the table. -/
theorem Inv.register_eq_none (hinv : Inv n s) (hs : s.stop = .poolStop) (a : ℕ) :
    ServerStop.step n s (.register a) = none := by
  simp only [ServerStop.step]
  split
  case h_1 id hloop =>
    rw [if_neg]
    rintro ⟨ha, -⟩
    have hquiet : (s.acceptors a).Quiet := by
      apply hinv.quiet
      rw [hs]
      exact ha
    exact not_quiet (.inr (.inl hloop)) hquiet
  case h_2 => rfl

theorem Inv.stopped (hinv : Inv n s) (hs : s.stop = .poolStop) : Stopped Conn.Covered n s where
  connections := by
    intro id hid _
    obtain ⟨a, ha, hloop⟩ | hmem | hcovered := hinv.covered id hid
    · have hquiet : (s.acceptors a).Quiet := by
        apply hinv.quiet
        rw [hs]
        exact ha
      obtain hloop | hloop := hloop
      · exact absurd hquiet (not_quiet (.inl hloop))
      · exact absurd hquiet (not_quiet (.inr (.inl hloop)))
    · rw [hs] at hmem
      cases hmem
    · exact hcovered
  noRegister := by
    intro s' hlater a
    obtain ⟨hinv', hs'⟩ := hinv.of_later hs hlater
    exact hinv'.register_eq_none hs' a
  alive := by
    intro id hid
    have hstop := hinv.stop
    unfold StopInv at hstop
    rw [hs] at hstop
    rw [show s.table = [] from hstop] at hid
    cases hid

end Stopped

/-- In every run of a server with any number of acceptors, `stop` never waits for the mutex that it
holds; and when it comes to the pool, every connection is closed, or will be by a task, by a thread
in `close` or by its destructor, and no other one comes. -/
theorem stop_leaves_no_connection (n : ℕ) (s : State) (hreach : (system n).Reachable s) :
    (∀ id, s.stop ≠ .stuck id) ∧ (s.stop = .poolStop → Stopped Conn.Covered n s) := by
  have hinv := inv_of_reachable hreach
  refine ⟨fun id hs => ?_, hinv.stopped⟩
  have hstop := hinv.stop
  unfold StopInv at hstop
  rw [hs] at hstop
  exact hstop

/-- A connection fails its handshake while the server is stopped. -/
def handshakeFails : List Action :=
  [.startAccept 0, .callAccept 0, .acceptOk 0, .build 0, .register 0, .launch 0, .conn 0 .drop,
    .callAccept 0, .stop 0, .stop 0, .runClose 0, .acceptAborted 0, .setValue 0, .stop 0, .stop 0,
    .stop 0, .stop 0, .stop 0]

theorem stop_leaves_no_connection_handshakeFails :
    ∃ s, s.stop = .poolStop ∧ s.nextId = 1 ∧ Stopped Conn.Covered 1 s := by
  obtain ⟨s, hs⟩ := Option.isSome_iff_exists.mp
    (by decide : ((system 1).runIf (fun _ _ => True) initial handshakeFails).isSome)
  have hreach : (system 1).Reachable s := reaches_of_runIf .init hs
  have hends : ((system 1).runIf (fun _ _ => True) initial handshakeFails).map
      (fun s => (s.stop, s.nextId)) = some (.poolStop, 1) := by decide
  rw [hs, Option.map_some, Option.some.injEq, Prod.mk.injEq] at hends
  exact ⟨s, hends.1, hends.2, (stop_leaves_no_connection 1 s hreach).2 hends.1⟩

/-- The last reference to a connection is gone and its destructor has not closed it yet, and `stop`
has gone past it: it is neither closed, nor is a task scheduled. -/
theorem not_closed_or_scheduled :
    ¬ ∀ (n : ℕ) (s : State), (system n).Reachable s → (∀ id, s.stop ≠ .stuck id) ∧
      (s.stop = .poolStop → Stopped (fun c => c.hasClosed ∨ 0 < c.tasks) n s) := by
  intro hclaim
  obtain ⟨s, hs⟩ := Option.isSome_iff_exists.mp
    (by decide : ((system 1).runIf (fun _ _ => True) initial handshakeFails).isSome)
  have hreach : (system 1).Reachable s := reaches_of_runIf .init hs
  have hends : ((system 1).runIf (fun _ _ => True) initial handshakeFails).map
      (fun s => (s.stop, s.nextId, (s.conns 0).transferred, (s.conns 0).hasClosed,
        (s.conns 0).tasks)) = some (.poolStop, 1, false, false, 0) := by decide
  simp only [hs, Option.map_some, Option.some.injEq, Prod.mk.injEq] at hends
  obtain ⟨hstop, hnext, htransferred, hclosed, htasks⟩ := hends
  obtain hdone | hdone := ((hclaim 1 s hreach).2 hstop).connections 0 (by omega)
    (by simp [htransferred])
  · rw [hclosed] at hdone
    cases hdone
  · omega

end Yalantinglibs.CoroRpc.ServerStop
