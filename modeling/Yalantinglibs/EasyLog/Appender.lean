import Mathlib.Data.List.Infix
import Mathlib.Logic.Function.Basic
import Mathlib.Order.Nat
import Yalantinglibs.Data.TransitionSystem

/-!
# The asynchronous appender

`easylog/appender.hpp`: producers put records into a queue, a thread takes them out and writes them
to the log, and `stop` sets a flag and joins the thread. A step is an operation on the queue or on
the condition variable, one that takes or releases the mutex, a look at the flag, or the writing of
a record.

The queue keeps the order of each producer and no other, so that a record that is taken out is the
first of some producer. Its size is exact.

## Main definitions

* `Writer`, `Stop` — where the thread and `stop` stand
* `State`, `Action`, `step` — an appender with producers
* `NothingLost` — what the log has of the records that were written before `stop`
* `Drains` — where the flag may be set

## Main results

* `nothingLost_iff` — nothing is lost exactly where the flag is set at a right place, and the thread
  ends in any case
-/

set_option autoImplicit false

namespace Yalantinglibs.EasyLog

variable {R : Type*}

/-! ### The queue -/

/-- The records of a producer. -/
def ofProducer (p : ℕ) (l : List (ℕ × R)) : List R := (l.filter fun e => e.1 = p).map Prod.snd

/-- Take out the first record of a producer. -/
def takeOf (p : ℕ) : List (ℕ × R) → Option (R × List (ℕ × R))
  | [] => none
  | (p', r) :: q =>
    if p' = p then some (r, q) else (takeOf p q).map fun t => (t.1, (p', r) :: t.2)

/-! ### The threads -/

/-- Where the thread of `start_thread` stands. -/
inductive Writer (R : Type*)
  /-- before the condition of the loop, as when the thread starts -/
  | test
  | dequeue
  | write (p : ℕ) (r : R)
  /-- before `size_approx() == 0` -/
  | sizeTest
  | lock
  /-- the mutex is held, before the two parts of the predicate of `wait` -/
  | waitSize
  | waitStop
  /-- `wait` is over -/
  | unlock
  /-- the mutex is released -/
  | waiting
  | waking
  /-- before `if (stop_)` -/
  | stopTest
  | drainSize
  | drain
  | drainWrite (p : ℕ) (r : R)
  | done

namespace Writer

/-- The record that was taken out and is not written yet. -/
def holding : Writer R → List (ℕ × R)
  | .write p r | .drainWrite p r => [(p, r)]
  | _ => []

/-- The thread is in the section under `que_mtx_`. -/
def holdsMutex : Writer R → Bool
  | .waitSize | .waitStop | .unlock => true
  | _ => false

/-- A notification wakes the thread if it waits. -/
def notified : Writer R → Writer R
  | .waiting => .waking
  | w => w

theorem notified_of_ne {w : Writer R} (h : w ≠ .waiting) : w.notified = w := by
  cases w with
  | waiting => exact absurd rfl h
  | _ => rfl

theorem notified_ne (w : Writer R) : w.notified ≠ .waiting := by
  cases w <;> nofun

end Writer

/-- Where the call of `stop` stands. -/
inductive Stop
  | notCalled
  | lock
  /-- the mutex is held, before `stop_` is set -/
  | set
  | notify
  | unlock
  | join
  | returned
  deriving DecidableEq

def Stop.holdsMutex : Stop → Bool
  | .set | .notify | .unlock => true
  | _ => false

structure State (R : Type*) where
  /-- the records in the queue, with the producers -/
  queue : List (ℕ × R) := []
  /-- what was written to the log -/
  log : List (ℕ × R) := []
  writer : Writer R := .test
  stop : Stop := .notCalled
  /-- `stop_` -/
  flag : Bool := false
  /-- the records that a producer has called `write` with, up to the last one in the queue -/
  written : ℕ → List R := fun _ => []
  /-- the producer is in `write`, and its record in the queue -/
  pending : ℕ → Bool := fun _ => false
  /-- the number of calls that had returned when `stop` was called -/
  before : ℕ → ℕ := fun _ => 0

inductive Action (R : Type*)
  /-- the thread goes on, with a record of the producer where it takes one out -/
  | writer (p : ℕ)
  /-- `wait` wakes up with no notification -/
  | spurious
  | enqueue (p : ℕ) (r : R)
  /-- a producer notifies, and `write` returns -/
  | notify (p : ℕ)
  | stop

namespace State

variable (s : State R)

/-- The number of the calls of `write` of a producer that have returned. -/
def returned (p : ℕ) : ℕ := (s.written p).length - if s.pending p then 1 else 0

def writerStep (p : ℕ) : Option (State R) :=
  match s.writer with
  | .test => some { s with writer := if s.flag then .done else .dequeue }
  | .dequeue =>
    match s.queue with
    | [] => some { s with writer := .sizeTest }
    | _ :: _ => (takeOf p s.queue).map fun t => { s with queue := t.2, writer := .write p t.1 }
  | .write p r => some { s with log := s.log ++ [(p, r)], writer := .sizeTest }
  | .sizeTest => some { s with writer := if s.queue.isEmpty then .lock else .stopTest }
  | .lock => if s.stop.holdsMutex then none else some { s with writer := .waitSize }
  | .waitSize => some { s with writer := if s.queue.isEmpty then .waitStop else .unlock }
  | .waitStop => some { s with writer := if s.flag then .unlock else .waiting }
  | .unlock => some { s with writer := .stopTest }
  | .waiting => none
  | .waking => if s.stop.holdsMutex then none else some { s with writer := .waitSize }
  | .stopTest => some { s with writer := if s.flag then .drainSize else .test }
  | .drainSize => some { s with writer := if s.queue.isEmpty then .test else .drain }
  | .drain =>
    match s.queue with
    | [] => some { s with writer := .test }
    | _ :: _ => (takeOf p s.queue).map fun t => { s with queue := t.2, writer := .drainWrite p t.1 }
  | .drainWrite p r => some { s with log := s.log ++ [(p, r)], writer := .drain }
  | .done => none

def stopStep : Option (State R) :=
  match s.stop with
  | .notCalled => some { s with stop := .lock, before := s.returned }
  | .lock => if s.writer.holdsMutex then none else some { s with stop := .set }
  | .set =>
    if s.flag then some { s with stop := .unlock }
    else some { s with flag := true, stop := .notify }
  | .notify => some { s with writer := s.writer.notified, stop := .unlock }
  | .unlock => some { s with stop := .join }
  | .join =>
    match s.writer with
    | .done => some { s with stop := .returned }
    | _ => none
  | .returned => none

end State

def step (s : State R) : Action R → Option (State R)
  | .writer p => s.writerStep p
  | .spurious =>
    match s.writer with
    | .waiting => some { s with writer := .waking }
    | _ => none
  | .enqueue p r =>
    if s.pending p then none
    else some { s with
      queue := s.queue ++ [(p, r)]
      written := Function.update s.written p (s.written p ++ [r])
      pending := Function.update s.pending p true }
  | .notify p =>
    if s.pending p then some { s with
      writer := s.writer.notified
      pending := Function.update s.pending p false }
    else none
  | .stop => s.stopStep

/-- An appender whose thread is started. -/
def system (R : Type*) : TransitionSystem (State R) (Action R) := ⟨{}, step⟩

/-! ### What is to hold -/

/-- What a producer has written before `stop` was called is in the log, in its order and once, and
the log has nothing that was not written. -/
def NothingLost (s : State R) : Prop :=
  ∀ p, (s.written p).take (s.before p) <+: ofProducer p s.log ∧ ofProducer p s.log <+: s.written p

/-- A step of the thread or of `stop`. -/
def Action.isOwn : Action R → Bool
  | .writer _ | .stop => true
  | _ => false

def Action.isWriter : Action R → Bool
  | .writer _ => true
  | _ => false

def Action.isEnqueue : Action R → Bool
  | .enqueue _ _ => true
  | _ => false

/-- Once `stop` is called, the thread or `stop` can go on until `stop` returns, and once the flag is
set, the thread takes no more than a few steps, and two for each record that is in the queue or put
there later. When `stop` returns, it has ended. -/
def Terminates (s : State R) : Prop :=
  (s.stop ≠ .notCalled → s.stop ≠ .returned → ∃ a, Action.isOwn a ∧ (step s a).isSome) ∧
  (s.flag → ∀ as s', (system R).runIf (fun _ _ => True) s as = some s' →
    as.countP Action.isWriter ≤ 2 * (s.queue.length + as.countP Action.isEnqueue) + 11) ∧
  (s.stop = .returned → s.writer = .done)

/-- Where the thread is before the condition of its loop, the flag is set only if none of the
records in the queue is one that was written before `stop` was called. The queue has the last
records of a producer. -/
def Drains (s : State R) (a : Action R) : Prop :=
  a = .stop → s.stop = .set → s.writer = .test →
    ∀ p, s.before p + (ofProducer p s.queue).length ≤ (s.written p).length

/-! ### The queue of a producer -/

@[simp] theorem ofProducer_nil (p : ℕ) : ofProducer p ([] : List (ℕ × R)) = [] := rfl

@[simp] theorem ofProducer_append (p : ℕ) (l l' : List (ℕ × R)) :
    ofProducer p (l ++ l') = ofProducer p l ++ ofProducer p l' := by
  simp [ofProducer]

theorem ofProducer_cons (p p' : ℕ) (r : R) (l : List (ℕ × R)) :
    ofProducer p ((p', r) :: l) = (if p' = p then [r] else []) ++ ofProducer p l := by
  unfold ofProducer
  split <;> simp_all

/-- The record that is taken out is the first one of its producer. -/
theorem ofProducer_takeOf {p : ℕ} {q : List (ℕ × R)} {t : R × List (ℕ × R)}
    (h : takeOf p q = some t) (p' : ℕ) :
    ofProducer p' q = ofProducer p' ([(p, t.1)] ++ t.2) := by
  induction q generalizing t with
  | nil => cases h
  | cons e q ih =>
    obtain ⟨p₁, r⟩ := e
    rw [takeOf] at h
    split at h
    · rename_i heq
      cases h
      rw [heq]
      rfl
    · rename_i hne
      obtain ⟨t', ht', rfl⟩ := Option.map_eq_some_iff.mp h
      rw [ofProducer_cons, ih ht']
      simp only [ofProducer_append, ofProducer_cons, List.append_nil, ofProducer_nil]
      by_cases hp : p = p'
      · subst hp
        simp [hne]
      · simp [hp]

theorem takeOf_length {p : ℕ} {q : List (ℕ × R)} {t : R × List (ℕ × R)} (h : takeOf p q = some t) :
    q.length = t.2.length + 1 := by
  induction q generalizing t with
  | nil => cases h
  | cons e q ih =>
    obtain ⟨p₁, r⟩ := e
    rw [takeOf] at h
    split at h
    · cases h
      rfl
    · obtain ⟨t', ht', rfl⟩ := Option.map_eq_some_iff.mp h
      simp [ih ht']

/-! ### The invariant -/

/-- The call of `stop` is behind the notification. -/
def Stop.notified : Stop → Bool
  | .unlock | .join | .returned => true
  | _ => false

structure Invariant (s : State R) : Prop where
  /-- no record is lost, none is there twice, and those of a producer are in order -/
  kept : ∀ p, ofProducer p (s.log ++ s.writer.holding ++ s.queue) = s.written p
  mutex : ¬(s.writer.holdsMutex ∧ s.stop.holdsMutex)
  flag : s.flag ↔ s.stop = .notify ∨ s.stop.notified
  before : ∀ p, s.before p ≤ (s.written p).length
  /-- the notification of `stop` does not come too early -/
  waiting : s.writer = .waiting → ¬s.stop.notified
  done : s.writer = .done → s.flag
  returned : s.stop = .returned → s.writer = .done

theorem invariant_init : Invariant ({} : State R) where
  kept p := rfl
  mutex := by simp [Writer.holdsMutex]
  flag := by simp [Stop.notified]
  before p := Nat.zero_le _
  waiting := nofun
  done := nofun
  returned := nofun

variable {s s' : State R}

/-- A step of the thread at which it takes nothing out and writes nothing. -/
theorem Invariant.move (hs : Invariant s) {w : Writer R} (hholding : w.holding = s.writer.holding)
    (hmutex : w.holdsMutex → s.writer.holdsMutex ∨ ¬s.stop.holdsMutex)
    (hwaiting : w = .waiting → ¬s.stop.notified) (hdone : w = .done → s.flag)
    (hnot : s.writer ≠ .done) : Invariant { s with writer := w } where
  kept p := by
    change ofProducer p (s.log ++ w.holding ++ s.queue) = _
    rw [hholding, hs.kept]
  mutex h := (hmutex h.1).elim (fun hw => hs.mutex ⟨hw, h.2⟩) fun hstop => hstop h.2
  flag := hs.flag
  before := hs.before
  waiting := hwaiting
  done := hdone
  returned h := absurd (hs.returned h) hnot

/-- A record is taken out. -/
theorem Invariant.take (hs : Invariant s) {w : Writer R} {p : ℕ} {t : R × List (ℕ × R)}
    (ht : takeOf p s.queue = some t) (hw : s.writer.holding = [])
    (hholding : w.holding = [(p, t.1)]) (hmutex : w.holdsMutex = false) (hnot : s.writer ≠ .done)
    (hne : w ≠ .waiting)
    (hne' : w ≠ .done) : Invariant { s with queue := t.2, writer := w } where
  kept p' := by
    have := hs.kept p'
    rw [hw, List.append_nil, ofProducer_append, ofProducer_takeOf ht] at this
    change ofProducer p' (s.log ++ w.holding ++ t.2) = _
    rw [hholding, List.append_assoc, ofProducer_append, this]
  mutex h := by simp [hmutex] at h
  flag := hs.flag
  before := hs.before
  waiting h := absurd h hne
  done h := absurd h hne'
  returned h := absurd (hs.returned h) hnot

/-- The record that was taken out is written to the log. -/
theorem Invariant.wrote (hs : Invariant s) {w : Writer R} {p : ℕ} {r : R}
    (hw : s.writer.holding = [(p, r)]) (hholding : w.holding = []) (hmutex : w.holdsMutex = false)
    (hnot : s.writer ≠ .done) (hne : w ≠ .waiting) (hne' : w ≠ .done) :
    Invariant { s with log := s.log ++ [(p, r)], writer := w } where
  kept p' := by
    change ofProducer p' (s.log ++ [(p, r)] ++ w.holding ++ s.queue) = _
    rw [hholding, List.append_nil, ← hw, hs.kept]
  mutex h := by simp [hmutex] at h
  flag := hs.flag
  before := hs.before
  waiting h := absurd h hne
  done h := absurd h hne'
  returned h := absurd (hs.returned h) hnot

theorem Invariant.writerStep (hs : Invariant s) {p : ℕ} (h : s.writerStep p = some s') :
    Invariant s' := by
  cases hw : s.writer with
  | test =>
    simp only [State.writerStep, hw] at h
    cases h
    by_cases hflag : s.flag
    · rw [if_pos hflag]
      exact hs.move (by rw [hw]; rfl) nofun nofun (fun _ => hflag) (by simp [hw])
    · rw [if_neg hflag]
      exact hs.move (by rw [hw]; rfl) nofun nofun nofun (by simp [hw])
  | dequeue =>
    simp only [State.writerStep, hw] at h
    split at h
    · cases h
      exact hs.move (by rw [hw]; rfl) nofun nofun nofun (by simp [hw])
    · obtain ⟨t, ht, rfl⟩ := Option.map_eq_some_iff.mp h
      exact hs.take ht (by rw [hw]; rfl) rfl rfl (by simp [hw]) nofun nofun
  | write p r =>
    simp only [State.writerStep, hw] at h
    cases h
    exact hs.wrote (by rw [hw]; rfl) rfl rfl (by simp [hw]) nofun nofun
  | sizeTest =>
    simp only [State.writerStep, hw] at h
    cases h
    split <;> exact hs.move (by rw [hw]; rfl) nofun nofun nofun (by simp [hw])
  | lock | waking =>
    simp only [State.writerStep, hw] at h
    split at h
    · cases h
    · rename_i hfree
      cases h
      exact hs.move (by rw [hw]; rfl) (fun _ => .inr hfree) nofun nofun (by simp [hw])
  | waitSize =>
    simp only [State.writerStep, hw] at h
    cases h
    split <;> exact hs.move (by rw [hw]; rfl) (fun _ => .inl (by rw [hw]; rfl)) nofun nofun
      (by simp [hw])
  | waitStop =>
    simp only [State.writerStep, hw] at h
    cases h
    by_cases hflag : s.flag
    · rw [if_pos hflag]
      exact hs.move (by rw [hw]; rfl) (fun _ => .inl (by rw [hw]; rfl)) nofun nofun (by simp [hw])
    · -- the mutex is held, so that `stop` cannot set the flag and notify before the thread waits
      rw [if_neg hflag]
      exact hs.move (by rw [hw]; rfl) nofun (fun _ hstop => hflag (hs.flag.mpr (.inr hstop))) nofun
        (by simp [hw])
  | unlock =>
    simp only [State.writerStep, hw] at h
    cases h
    exact hs.move (by rw [hw]; rfl) nofun nofun nofun (by simp [hw])
  | waiting | done =>
    simp only [State.writerStep, hw] at h
    cases h
  | stopTest | drainSize =>
    simp only [State.writerStep, hw] at h
    cases h
    split <;> exact hs.move (by rw [hw]; rfl) nofun nofun nofun (by simp [hw])
  | drain =>
    simp only [State.writerStep, hw] at h
    split at h
    · cases h
      exact hs.move (by rw [hw]; rfl) nofun nofun nofun (by simp [hw])
    · obtain ⟨t, ht, rfl⟩ := Option.map_eq_some_iff.mp h
      exact hs.take ht (by rw [hw]; rfl) rfl rfl (by simp [hw]) nofun nofun
  | drainWrite p r =>
    simp only [State.writerStep, hw] at h
    cases h
    exact hs.wrote (by rw [hw]; rfl) rfl rfl (by simp [hw]) nofun nofun

/-- A notification changes nothing but that a thread that waits wakes up. -/
theorem Invariant.notified (hs : Invariant s) :
    Invariant { s with writer := s.writer.notified } := by
  by_cases hw : s.writer = .waiting
  · rw [hw]
    exact hs.move (by rw [hw]; rfl) nofun nofun nofun (by simp [hw])
  · rw [Writer.notified_of_ne hw]
    exact hs

theorem Invariant.stopStep (hs : Invariant s) (h : s.stopStep = some s') : Invariant s' := by
  have hflag := hs.flag
  cases hstop : s.stop with
  | notCalled =>
    simp only [State.stopStep, hstop] at h
    cases h
    exact { hs with
      mutex := by simp [Stop.holdsMutex]
      flag := by simpa [hstop, Stop.notified] using hflag
      before := fun p => Nat.sub_le _ _
      waiting := by simp [Stop.notified]
      returned := nofun }
  | lock =>
    simp only [State.stopStep, hstop] at h
    split at h
    · cases h
    · rename_i hfree
      cases h
      exact { hs with
        mutex := fun hm => hfree hm.1
        flag := by simpa [hstop, Stop.notified] using hflag
        waiting := by simp [Stop.notified]
        returned := nofun }
  | set =>
    have hunset : ¬s.flag := by simpa [hstop, Stop.notified] using hflag
    simp only [State.stopStep, hstop, if_neg hunset] at h
    cases h
    exact { hs with
      mutex := fun hm => hs.mutex ⟨hm.1, by rw [hstop]; rfl⟩
      flag := by simp
      waiting := by simp [Stop.notified]
      done := fun _ => rfl
      returned := nofun }
  | notify =>
    simp only [State.stopStep, hstop] at h
    cases h
    have hn := hs.notified
    exact { hn with
      mutex := fun hm => hn.mutex ⟨hm.1, by simp [hstop, Stop.holdsMutex]⟩
      flag := by simpa [hstop, Stop.notified] using hflag
      waiting := fun hw => absurd hw s.writer.notified_ne
      returned := nofun }
  | unlock =>
    simp only [State.stopStep, hstop] at h
    cases h
    exact { hs with
      mutex := by simp [Stop.holdsMutex]
      flag := by simpa [hstop, Stop.notified] using hflag
      waiting := fun hw _ => hs.waiting hw (by rw [hstop]; rfl)
      returned := nofun }
  | join =>
    simp only [State.stopStep, hstop] at h
    split at h
    · rename_i hw
      cases h
      exact { hs with
        mutex := by simp [Stop.holdsMutex]
        flag := by simpa [hstop, Stop.notified] using hflag
        waiting := fun hw _ => hs.waiting hw (by rw [hstop]; rfl)
        returned := fun _ => hw }
    · cases h
  | returned =>
    simp only [State.stopStep, hstop] at h
    cases h

theorem Invariant.step (hs : Invariant s) (a : Action R) (h : step s a = some s') :
    Invariant s' := by
  cases a with
  | writer p => exact hs.writerStep h
  | spurious =>
    simp only [EasyLog.step] at h
    split at h
    · rename_i hw
      cases h
      exact hs.move (by rw [hw]; rfl) nofun nofun nofun (by simp [hw])
    · cases h
  | enqueue p r =>
    simp only [EasyLog.step] at h
    split at h
    · cases h
    · cases h
      refine { hs with kept := fun p' => ?_, before := fun p' => ?_ }
      · change ofProducer p' (s.log ++ s.writer.holding ++ (s.queue ++ [(p, r)])) = _
        rw [← List.append_assoc, ofProducer_append, hs.kept, ofProducer_cons]
        by_cases hp : p = p'
        · subst hp
          simp
        · simp [hp, Function.update_of_ne (Ne.symm hp)]
      · change s.before p' ≤ (Function.update s.written p (s.written p ++ [r]) p').length
        by_cases hp : p' = p
        · subst hp
          have := hs.before p'
          simp only [Function.update_self, List.length_append]
          omega
        · rw [Function.update_of_ne hp]
          exact hs.before p'
  | notify p =>
    simp only [EasyLog.step] at h
    split at h
    · cases h
      exact { hs.notified with }
    · cases h
  | stop => exact hs.stopStep h

theorem invariant_of_reachable (h : (system R).Reachable s) : Invariant s :=
  h.invariant invariant_init fun _ a _ hs _ hstep => hs.step a hstep

/-! ### The end of the thread -/

/-- A bound on the steps that are left of a thread once the flag is set. -/
def rank (s : State R) : ℕ :=
  match s.writer with
  | .done => 0
  | .test => 1
  | .drain => 2 * s.queue.length + 2
  | .drainWrite _ _ | .drainSize => 2 * s.queue.length + 3
  | .stopTest => 2 * s.queue.length + 4
  | .unlock => 2 * s.queue.length + 5
  | .waitStop => 2 * s.queue.length + 6
  | .waitSize => 2 * s.queue.length + 7
  | .lock | .waking => 2 * s.queue.length + 8
  | .waiting | .sizeTest => 2 * s.queue.length + 9
  | .write _ _ => 2 * s.queue.length + 10
  | .dequeue => 2 * s.queue.length + 11

theorem rank_le (s : State R) : rank s ≤ 2 * s.queue.length + 11 := by
  unfold rank
  split <;> omega

theorem rank_writerStep {p : ℕ} (hflag : s.flag) (h : s.writerStep p = some s') :
    s'.flag ∧ rank s' + 1 ≤ rank s := by
  cases hw : s.writer with
  | dequeue | drain =>
    -- the queue is empty, or has a record less
    simp only [State.writerStep, hw] at h
    split at h <;> rename_i hq
    · cases h
      exact ⟨hflag, by simp [rank, hw, hq]⟩
    · obtain ⟨t, ht, rfl⟩ := Option.map_eq_some_iff.mp h
      have hlen := takeOf_length ht
      refine ⟨hflag, ?_⟩
      simp only [rank, hw]
      omega
  | lock | waking =>
    simp only [State.writerStep, hw] at h
    split at h
    · cases h
    · cases h
      exact ⟨hflag, by simp [rank, hw]⟩
  | waiting | done =>
    simp only [State.writerStep, hw] at h
    cases h
  | sizeTest | waitSize | drainSize =>
    simp only [State.writerStep, hw] at h
    cases h
    refine ⟨hflag, ?_⟩
    simp only [rank, hw]
    split_ifs <;> simp
  | test | waitStop | stopTest =>
    simp only [State.writerStep, hw, if_pos hflag] at h
    cases h
    exact ⟨hflag, by simp [rank, hw]⟩
  | write p r | unlock | drainWrite p r =>
    simp only [State.writerStep, hw] at h
    cases h
    exact ⟨hflag, by simp [rank, hw]⟩

theorem rank_notified (s : State R) : rank { s with writer := s.writer.notified } ≤ rank s := by
  unfold Writer.notified
  split
  · rename_i hw
    simp [rank, hw]
  · exact le_refl _

/-- Each step of the thread takes one of the steps that are left, and a record that is put into the
queue adds two. -/
theorem rank_step {a : Action R} (hflag : s.flag) (h : step s a = some s') :
    s'.flag ∧ rank s' + (if a.isWriter then 1 else 0) ≤ rank s + if a.isEnqueue then 2 else 0 := by
  cases a with
  | writer p => exact rank_writerStep hflag h
  | spurious =>
    simp only [step] at h
    split at h
    · rename_i hw
      cases h
      exact ⟨hflag, by simp [rank, hw, Action.isWriter, Action.isEnqueue]⟩
    · cases h
  | enqueue p r =>
    simp only [step] at h
    split at h
    · cases h
    · cases h
      refine ⟨hflag, ?_⟩
      simp only [rank, Action.isWriter, Action.isEnqueue, List.length_append, List.length_singleton]
      split <;> simp <;> omega
  | notify p =>
    simp only [step] at h
    split at h
    · cases h
      exact ⟨hflag, rank_notified s⟩
    · cases h
  | stop =>
    cases hstop : s.stop with
    | notify =>
      simp only [step, State.stopStep, hstop] at h
      cases h
      exact ⟨hflag, rank_notified s⟩
    | notCalled | unlock =>
      simp only [step, State.stopStep, hstop] at h
      cases h
      exact ⟨hflag, le_refl _⟩
    | set =>
      simp only [step, State.stopStep, hstop, if_pos hflag] at h
      cases h
      exact ⟨hflag, le_refl _⟩
    | lock =>
      simp only [step, State.stopStep, hstop] at h
      split at h
      · cases h
      · cases h
        exact ⟨hflag, le_refl _⟩
    | join =>
      simp only [step, State.stopStep, hstop] at h
      split at h
      · cases h
        exact ⟨hflag, le_refl _⟩
      · cases h
    | returned =>
      simp only [step, State.stopStep, hstop] at h
      cases h

theorem rank_run {as : List (Action R)} (hflag : s.flag)
    (h : (system R).runIf (fun _ _ => True) s as = some s') :
    as.countP Action.isWriter ≤ rank s + 2 * as.countP Action.isEnqueue := by
  induction as generalizing s with
  | nil => exact Nat.zero_le _
  | cons a as ih =>
    rw [TransitionSystem.runIf, if_pos trivial] at h
    obtain ⟨s₁, hs₁, hrun⟩ := Option.bind_eq_some_iff.mp h
    obtain ⟨hflag₁, hrank⟩ := rank_step hflag hs₁
    have := ih hflag₁ hrun
    simp only [List.countP_cons]
    split_ifs at hrank ⊢ <;> omega

/-- The thread can go on where it has not ended, does not wait, and can have the mutex. -/
theorem exists_writerStep (hw : s.writer ≠ .done) (hwaiting : s.writer ≠ .waiting)
    (hmutex : ¬s.stop.holdsMutex ∨ s.writer.holdsMutex) : ∃ p, (s.writerStep p).isSome := by
  have hfree : s.writer = .lock ∨ s.writer = .waking → ¬s.stop.holdsMutex := by
    rintro (h | h)
    all_goals
      rw [h] at hmutex
      exact hmutex.resolve_right nofun
  unfold State.writerStep
  cases hq : s.queue with
  | nil => exact ⟨0, by split <;> simp_all⟩
  | cons e q => exact ⟨e.1, by split <;> simp_all [takeOf]⟩

/-- The thread or `stop` can go on. -/
theorem Invariant.exists_step (hs : Invariant s) (hcalled : s.stop ≠ .notCalled)
    (hreturned : s.stop ≠ .returned) : ∃ a, Action.isOwn a ∧ (EasyLog.step s a).isSome := by
  -- a thread that has the mutex can go on
  have hwriter : s.writer.holdsMutex → ∃ a, Action.isOwn a ∧ (EasyLog.step s a).isSome := by
    intro hm
    obtain ⟨p, hp⟩ := exists_writerStep (s := s)
      (by rintro h; simp [h, Writer.holdsMutex] at hm)
      (by rintro h; simp [h, Writer.holdsMutex] at hm) (.inr hm)
    exact ⟨.writer p, rfl, hp⟩
  cases hstop : s.stop with
  | notCalled => exact absurd hstop hcalled
  | returned => exact absurd hstop hreturned
  | lock =>
    by_cases hm : s.writer.holdsMutex
    · exact hwriter hm
    · exact ⟨.stop, rfl, by simp [EasyLog.step, State.stopStep, hstop, hm]⟩
  | set => exact ⟨.stop, rfl, by simp only [EasyLog.step, State.stopStep, hstop]; split <;> rfl⟩
  | notify => exact ⟨.stop, rfl, by simp [EasyLog.step, State.stopStep, hstop]⟩
  | unlock => exact ⟨.stop, rfl, by simp [EasyLog.step, State.stopStep, hstop]⟩
  | join =>
    by_cases hw : s.writer = .done
    · exact ⟨.stop, rfl, by simp [EasyLog.step, State.stopStep, hstop, hw]⟩
    · -- `stop` has notified the thread, so that it does not wait
      have hwaiting : s.writer ≠ .waiting := fun h => hs.waiting h (by rw [hstop]; rfl)
      obtain ⟨p, hp⟩ := exists_writerStep hw hwaiting (.inl (by simp [hstop, Stop.holdsMutex]))
      exact ⟨.writer p, rfl, hp⟩

theorem Invariant.terminates (hs : Invariant s) : Terminates s := by
  refine ⟨hs.exists_step, ?_, hs.returned⟩
  intro hflag as s' hrun
  have := rank_run hflag hrun
  have := rank_le s
  omega

/-! ### What is in the log -/

/-- The thread takes nothing out of the queue any more if the flag is set. -/
def Writer.atEnd : Writer R → Bool
  | .test | .done => true
  | _ => false

/-- What was written before `stop` was called has come to the log. -/
def Logged (s : State R) : Prop := ∀ p, s.before p ≤ (ofProducer p s.log).length

/-- The thread ends with nothing left in the queue that was written before `stop` was called. -/
def Drained (s : State R) : Prop := s.flag → s.writer.atEnd → Logged s

theorem Invariant.logged_iff (hs : Invariant s) (hw : s.writer.holding = []) :
    Logged s ↔ ∀ p, s.before p + (ofProducer p s.queue).length ≤ (s.written p).length := by
  have hlen : ∀ p, (ofProducer p s.log).length + (ofProducer p s.queue).length =
      (s.written p).length := by
    intro p
    have := congrArg List.length (hs.kept p)
    simpa only [hw, List.append_nil, ofProducer_append, List.length_append] using this
  constructor
  · intro h p
    have := h p
    have := hlen p
    omega
  · intro h p
    have := h p
    have := hlen p
    omega

/-- Where the queue is empty, everything has come to the log. -/
theorem Invariant.logged_of_empty (hs : Invariant s) (hw : s.writer.holding = [])
    (hq : s.queue = []) : Logged s := by
  rw [hs.logged_iff hw, hq]
  intro p
  exact hs.before p

theorem Writer.atEnd_notified (w : Writer R) : w.notified.atEnd = w.atEnd := by
  cases w <;> rfl

theorem drained_of_not_atEnd (h : s.writer.atEnd = false) : Drained s := by
  intro _ hend
  rw [h] at hend
  cases hend

theorem drained_of_not_flag (h : ¬s.flag) : Drained s := fun hflag => absurd hflag h

theorem writerStep_flag {p : ℕ} (h : s.writerStep p = some s') : s'.flag = s.flag := by
  unfold State.writerStep at h
  split at h
  case h_2 | h_13 =>
    split at h
    · cases h
      rfl
    · obtain ⟨t, -, rfl⟩ := Option.map_eq_some_iff.mp h
      rfl
  case h_5 | h_10 =>
    split at h
    · cases h
    · cases h
      rfl
  all_goals
    cases h
    try rfl

/-- The thread comes to its end with the queue empty, or with the flag not set. -/
theorem Invariant.drained_writerStep (hs : Invariant s) {p : ℕ} (h : s.writerStep p = some s') :
    Drained s' ↔ Drained s := by
  by_cases hflag : s.flag
  swap
  · refine iff_of_true (drained_of_not_flag ?_) (drained_of_not_flag hflag)
    rw [writerStep_flag h]
    exact hflag
  cases hw : s.writer with
  | test =>
    simp only [State.writerStep, hw, if_pos hflag] at h
    cases h
    simp only [Drained, Logged, hw]
    rfl
  | drainSize =>
    simp only [State.writerStep, hw] at h
    cases h
    refine iff_of_true ?_ (drained_of_not_atEnd (by rw [hw]; rfl))
    by_cases hq : s.queue.isEmpty
    · intro _ _
      exact hs.logged_of_empty (by rw [hw]; rfl) (List.isEmpty_iff.mp hq)
    · exact drained_of_not_atEnd (by simp only [hq]; rfl)
  | drain =>
    simp only [State.writerStep, hw] at h
    refine iff_of_true ?_ (drained_of_not_atEnd (by rw [hw]; rfl))
    split at h <;> rename_i hq
    · cases h
      intro _ _
      exact hs.logged_of_empty (by rw [hw]; rfl) hq
    · obtain ⟨t, ht, rfl⟩ := Option.map_eq_some_iff.mp h
      exact drained_of_not_atEnd rfl
  | dequeue =>
    simp only [State.writerStep, hw] at h
    refine iff_of_true ?_ (drained_of_not_atEnd (by rw [hw]; rfl))
    split at h
    · cases h
      exact drained_of_not_atEnd rfl
    · obtain ⟨t, ht, rfl⟩ := Option.map_eq_some_iff.mp h
      exact drained_of_not_atEnd rfl
  | lock | waking =>
    simp only [State.writerStep, hw] at h
    refine iff_of_true ?_ (drained_of_not_atEnd (by rw [hw]; rfl))
    split at h
    · cases h
    · cases h
      exact drained_of_not_atEnd rfl
  | sizeTest | waitSize =>
    simp only [State.writerStep, hw] at h
    cases h
    refine iff_of_true (drained_of_not_atEnd ?_) (drained_of_not_atEnd (by rw [hw]; rfl))
    dsimp only
    split <;> rfl
  | waitStop | stopTest =>
    -- the flag is set
    simp only [State.writerStep, hw, if_pos hflag] at h
    cases h
    exact iff_of_true (drained_of_not_atEnd rfl) (drained_of_not_atEnd (by rw [hw]; rfl))
  | write p r | unlock | drainWrite p r =>
    simp only [State.writerStep, hw] at h
    cases h
    exact iff_of_true (drained_of_not_atEnd rfl) (drained_of_not_atEnd (by rw [hw]; rfl))
  | waiting | done =>
    simp only [State.writerStep, hw] at h
    cases h

theorem drained_notified : Drained { s with writer := s.writer.notified } ↔ Drained s := by
  unfold Drained
  rw [Writer.atEnd_notified]
  rfl

theorem drains_of_ne {a : Action R} (h : s.stop ≠ .set) : Drains s a := fun _ hset => absurd hset h

/-- All depends on where the thread is when the flag is set. -/
theorem Invariant.drained_stopStep (hs : Invariant s) (h : s.stopStep = some s') :
    Drained s' ↔ Drained s ∧ Drains s .stop := by
  have hflag := hs.flag
  cases hstop : s.stop with
  | set =>
    have hunset : ¬s.flag := by simpa [hstop, Stop.notified] using hflag
    simp only [State.stopStep, hstop, if_neg hunset] at h
    cases h
    constructor
    · intro hd
      refine ⟨drained_of_not_flag hunset, fun _ _ hw => ?_⟩
      exact (hs.logged_iff (by rw [hw]; rfl)).mp (hd rfl (by rw [hw]; rfl))
    · rintro ⟨-, hdrains⟩ _ hend
      cases hw : s.writer with
      | test => exact (hs.logged_iff (by rw [hw]; rfl)).mpr (hdrains rfl hstop hw)
      | done => exact absurd (hs.done hw) hunset
      | _ =>
        rw [show s.writer.atEnd = false by rw [hw]; rfl] at hend
        cases hend
  | notCalled =>
    simp only [State.stopStep, hstop] at h
    cases h
    have hunset : ¬s.flag := by simpa [hstop, Stop.notified] using hflag
    exact iff_of_true (drained_of_not_flag hunset)
      ⟨drained_of_not_flag hunset, drains_of_ne (by simp [hstop])⟩
  | notify =>
    simp only [State.stopStep, hstop] at h
    cases h
    have hdrains : Drains s .stop := drains_of_ne (by simp [hstop])
    exact (drained_notified (s := s)).trans (and_iff_left hdrains).symm
  | lock =>
    simp only [State.stopStep, hstop] at h
    split at h
    · cases h
    · cases h
      have hdrains : Drains s .stop := drains_of_ne (by simp [hstop])
      exact (and_iff_left hdrains).symm
  | unlock =>
    simp only [State.stopStep, hstop] at h
    cases h
    have hdrains : Drains s .stop := drains_of_ne (by simp [hstop])
    exact (and_iff_left hdrains).symm
  | join =>
    simp only [State.stopStep, hstop] at h
    split at h
    · cases h
      have hdrains : Drains s .stop := drains_of_ne (by simp [hstop])
      exact (and_iff_left hdrains).symm
    · cases h
  | returned =>
    simp only [State.stopStep, hstop] at h
    cases h

theorem Invariant.drained_step (hs : Invariant s) {a : Action R}
    (h : EasyLog.step s a = some s') :
    Drained s' ↔ Drained s ∧ Drains s a := by
  cases a with
  | writer p => exact (hs.drained_writerStep h).trans (and_iff_left nofun).symm
  | spurious =>
    simp only [EasyLog.step] at h
    split at h
    · rename_i hw
      cases h
      exact iff_of_true (drained_of_not_atEnd rfl) ⟨drained_of_not_atEnd (by rw [hw]; rfl), nofun⟩
    · cases h
  | enqueue p r =>
    simp only [EasyLog.step] at h
    split at h
    · cases h
    · cases h
      exact (and_iff_left nofun).symm
  | notify p =>
    simp only [EasyLog.step] at h
    split at h
    · cases h
      exact (drained_notified (s := s)).trans (and_iff_left nofun).symm
    · cases h
  | stop => exact hs.drained_stopStep h

/-- The runs in which the flag is set at a right place are those that come to a state in which the
thread leaves nothing. -/
theorem reaches_drains_iff (h : (system R).Reachable s) :
    (system R).Reaches Drains s ↔ Drained s := by
  constructor
  · intro hr
    have := hr.invariant (I := fun s => Invariant s ∧ Drained s)
      ⟨invariant_init, drained_of_not_flag Bool.false_ne_true⟩
      fun _ a _ hs ha hstep => ⟨hs.1.step a hstep, (hs.1.drained_step hstep).mpr ⟨hs.2, ha⟩⟩
    exact this.2
  · induction h with
    | init => exact fun _ => .init
    | step hreach _ hstep ih =>
      intro hd
      have := ((invariant_of_reachable hreach).drained_step hstep).mp hd
      exact .step (ih this.1) this.2 hstep

/-- In the log are the records that a producer has written, up to one of them. -/
theorem Invariant.log_of_written (hs : Invariant s) (p : ℕ) : ofProducer p s.log <+: s.written p := by
  rw [← hs.kept p, List.append_assoc, ofProducer_append]
  exact List.prefix_append _ _

theorem Invariant.nothingLost_iff_logged (hs : Invariant s) : NothingLost s ↔ Logged s := by
  have hlen : ∀ p, ((s.written p).take (s.before p)).length = s.before p :=
    fun p => List.length_take_of_le (hs.before p)
  constructor
  · intro h p
    rw [← hlen p]
    exact (h p).1.length_le
  · intro h p
    refine ⟨?_, hs.log_of_written p⟩
    exact List.prefix_of_prefix_length_le (List.take_prefix _ _) (hs.log_of_written p)
      ((hlen p).trans_le (h p))

/-- When `stop` returns, nothing is lost that was written before it was called exactly where the run
has set the flag at a right place. The thread ends in every run. -/
theorem nothingLost_iff (h : (system R).Reachable s) :
    (s.stop = .returned → (NothingLost s ↔ (system R).Reaches Drains s)) ∧ Terminates s := by
  have hs := invariant_of_reachable h
  refine ⟨fun hret => ?_, hs.terminates⟩
  have hw := hs.returned hret
  rw [reaches_drains_iff h, hs.nothingLost_iff_logged]
  constructor
  · exact fun hl _ _ => hl
  · intro hd
    exact hd (hs.done hw) (by rw [hw]; rfl)

/-! ### A record that is written, and one that is lost -/

/-- The state at the end of a run. -/
def runOf (as : List (Action ℕ)) : State ℕ :=
  ((system ℕ).runIf (fun _ _ => True) {} as).getD {}

/-- The thread waits for the record, and has the flag set when it looks at it. -/
def woken : List (Action ℕ) :=
  [.writer 0, .writer 0, .writer 0, .writer 0, .writer 0, .writer 0, .enqueue 0 7, .notify 0,
    .stop, .stop, .stop, .stop, .stop, .writer 0, .writer 0, .writer 0, .writer 0, .writer 0,
    .writer 0, .writer 0, .writer 0, .writer 0, .stop]

theorem nothingLost_iff_woken :
    ((runOf woken).stop = .returned ∧ ofProducer 0 (runOf woken).log = [7]) ∧
    (NothingLost (runOf woken) ↔ (system ℕ).Reaches Drains (runOf woken)) ∧
      Terminates (runOf woken) := by
  have hrun : (system ℕ).runIf (fun _ _ => True) {} woken = some (runOf woken) := rfl
  have hreach : (system ℕ).Reachable (runOf woken) := TransitionSystem.reaches_of_runIf .init hrun
  exact ⟨⟨rfl, rfl⟩, (nothingLost_iff hreach).1 rfl, (nothingLost_iff hreach).2⟩

/-- The thread has not begun when `stop` sets the flag. -/
def unbegun : List (Action ℕ) :=
  [.enqueue 0 7, .notify 0, .stop, .stop, .stop, .writer 0, .stop, .stop, .stop]

theorem not_nothingLost : ¬∀ s : State ℕ, (system ℕ).Reachable s →
    (s.stop = .returned → NothingLost s) ∧ Terminates s := by
  intro h
  have hrun : (system ℕ).runIf (fun _ _ => True) {} unbegun = some (runOf unbegun) := rfl
  have hreach : (system ℕ).Reachable (runOf unbegun) := TransitionSystem.reaches_of_runIf .init hrun
  have hlost := ((h _ hreach).1 rfl 0).1.length_le
  exact absurd hlost (by decide)

end Yalantinglibs.EasyLog
