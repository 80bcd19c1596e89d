import Mathlib.Data.List.Basic
import Mathlib.Tactic.Common
import Yalantinglibs.Data.ByteCodec
import Yalantinglibs.Data.TransitionSystem

/-!
# Reading from an URMA socket

`async_urma_read` and `async_urma_read_views` of `coro_io/urma/urma_io.hpp`, over the part of
`urma_socket.hpp` that receives. A message comes into a registered buffer. It goes to the call that
waits for one, or into a queue; what a copying read leaves of it stays in its buffer for the next
call. A read of views hands on whole buffers.

A message that finds the queue full is dropped, and the socket is closed. A message has bytes, since
one without them is the end of the stream, which closes the socket too.

## Main definitions

* `ReadRequest`, `ReadCall` — a call, and how far it has come
* `Reader`, `ReadEvent`, `Reader.step` — a socket that is read from

## Main results

* `Reader.returned_isPrefix` — the calls return the bytes of the stream, one behind the other
* `Reader.exact_iff` — when each call returns as many as it asks for
-/

set_option autoImplicit false

namespace Yalantinglibs.CoroIo

open TransitionSystem

/-! ### The model -/

inductive ReadRequest
  /-- `async_urma_read` into buffers of such sizes -/
  | read (sizes : List ℕ) (readSome : Bool)
  | views (size : ℕ)

/-- A call that waits for a message. -/
inductive ReadCall
  /-- `left` bytes of the present buffer are left, and `rest` are the sizes of those behind it -/
  | read (sizes : List ℕ) (readSome : Bool) (left : ℕ) (rest : List ℕ) (done : Bytes)
  | views (size : ℕ) (got : List Bytes)

/-- How a call goes on with a message. -/
inductive ReadOutcome
  | waits (call : ReadCall)
  /-- with the bytes that are returned, and what remains in the registered buffer -/
  | returns (bytes remain : Bytes)
  | fails

/-- What was copied out of the registered buffer, and what then remains in it, beside the room that
is left in the present buffer and the sizes of those behind it. -/
structure Copied where
  bytes : Bytes
  remain : Bytes
  left : ℕ
  rest : List ℕ

/-- Copy what remains in the registered buffer, as far as it goes. -/
def consume (remain : Bytes) : List ℕ → Copied
  | [] => ⟨[], remain, 0, []⟩
  | size :: sizes =>
    let count := min size remain.length
    if size - count = 0 then
      let c := consume (remain.drop count) sizes
      { c with bytes := remain.take count ++ c.bytes }
    else ⟨remain.take count, remain.drop count, size - count, sizes⟩

/-- The next buffers of a copying read. -/
def ReadCall.nextBuffers (sizes : List ℕ) (readSome : Bool) (done remain : Bytes) (rest : List ℕ) :
    ReadOutcome :=
  let c := consume remain rest
  if c.left = 0 then .returns (done ++ c.bytes) c.remain
  else .waits (.read sizes readSome c.left c.rest (done ++ c.bytes))

/-- A read of views waits for a message as long as there are bytes to come. -/
def ReadCall.nextView (size : ℕ) (got : List Bytes) : ReadOutcome :=
  if got.flatten.length < size then .waits (.views size got) else .returns got.flatten []

/-- A call begins with what remains of the last message. -/
def ReadRequest.start (remain : Bytes) : ReadRequest → ReadOutcome
  | .read sizes readSome => ReadCall.nextBuffers sizes readSome [] remain sizes
  | .views size => ReadCall.nextView size (if remain = [] then [] else [remain])

def ReadCall.receive (message : Bytes) : ReadCall → ReadOutcome
  | .read sizes readSome left rest done =>
    let count := min message.length left
    let done' := done ++ message.take count
    if readSome then .returns done' (message.drop count)
    else if left - count = 0 then
      nextBuffers sizes readSome done' (message.drop count) rest
    else .waits (.read sizes readSome (left - count) rest done')
  | .views size got =>
    if size < got.flatten.length + message.length then .fails
    else nextView size (got ++ [message])

/-- Go on with the messages that are in the queue: what comes of it, and what is left of the
queue. -/
def ReadOutcome.resume : ReadOutcome → List Bytes → ReadOutcome × List Bytes
  | .waits call, message :: messages => (call.receive message).resume messages
  | outcome, messages => (outcome, messages)

def ReadCall.request : ReadCall → ReadRequest
  | .read sizes readSome _ _ _ => .read sizes readSome
  | .views size _ => .views size

structure Reader where
  /-- `remain_data_` -/
  remain : Bytes := []
  /-- `recv_result_` -/
  queue : List Bytes := []
  /-- the call that `recv_callback_` resumes -/
  current : Option ReadCall := none
  /-- `has_close_` -/
  closed : Bool := false
  /-- a call has ended with an error -/
  failed : Bool := false
  /-- what the calls have returned -/
  returned : List (ReadRequest × Bytes) := []
  /-- the messages that were not dropped -/
  arrived : List Bytes := []

inductive ReadEvent
  | call (request : ReadRequest)
  /-- a message arrives, with one byte or more -/
  | arrive (byte : UInt8) (bytes : Bytes)
  | close

namespace Reader

/-- The state behind a call that has come so far. -/
def settle (r : Reader) (request : ReadRequest) : ReadOutcome × List Bytes → Reader
  | (.waits call, queue) =>
    if r.closed then { r with remain := [], queue, current := none, failed := true }
    else { r with remain := [], queue, current := some call }
  | (.returns bytes remain, queue) =>
    { r with remain, queue, current := none, returned := r.returned ++ [(request, bytes)] }
  | (.fails, queue) => { r with remain := [], queue, current := none, failed := true }

/-- What happens to a socket whose queue has room for `capacity` messages. -/
def step (capacity : ℕ) (r : Reader) : ReadEvent → Option Reader
  | .call request =>
    match r.current with
    | none =>
      if r.failed then none
      else some (r.settle request ((request.start r.remain).resume r.queue))
    | some _ => none
  | .arrive byte bytes =>
    if r.closed then none
    else
      let message := byte :: bytes
      match r.current with
      | some call =>
        some ({ r with arrived := r.arrived ++ [message] }.settle call.request
          (call.receive message, r.queue))
      | none =>
        if r.queue.length < capacity then
          some { r with queue := r.queue ++ [message], arrived := r.arrived ++ [message] }
        else some { r with closed := true }
  | .close =>
    match r.current with
    | some _ => some { r with closed := true, current := none, failed := true }
    | none => some { r with closed := true }

def system (capacity : ℕ) : TransitionSystem Reader ReadEvent := ⟨{}, step capacity⟩

end Reader

/-- A call has returned as many bytes as it asked for, and one of `async_read_some` no more. -/
def ReadRequest.Exact (bytes : Bytes) : ReadRequest → Prop
  | .read sizes readSome =>
    bytes.length ≤ sizes.sum ∧ (readSome = false → bytes.length = sizes.sum)
  | .views size => bytes.length = size

/-- What remains of the last message is not more than a read of views asks for. -/
def ReadEvent.Fits (r : Reader) : ReadEvent → Prop
  | .call (.views size) => r.remain.length ≤ size
  | _ => True

/-! ### A call -/

theorem consume_append (remain : Bytes) (sizes : List ℕ) :
    (consume remain sizes).bytes ++ (consume remain sizes).remain = remain := by
  induction sizes generalizing remain with
  | nil => rfl
  | cons size sizes ih =>
    rw [consume]
    by_cases hfull : size - min size remain.length = 0
    · rw [if_pos hfull]
      dsimp only
      rw [List.append_assoc, ih, List.take_append_drop]
    · rw [if_neg hfull]
      exact List.take_append_drop _ _

theorem consume_sum (remain : Bytes) (sizes : List ℕ) :
    (consume remain sizes).bytes.length + (consume remain sizes).left +
      (consume remain sizes).rest.sum = sizes.sum := by
  induction sizes generalizing remain with
  | nil => rfl
  | cons size sizes ih =>
    rw [consume]
    by_cases hfull : size - min size remain.length = 0
    · rw [if_pos hfull]
      have := ih (remain.drop (min size remain.length))
      simp only [List.length_append, List.length_take, List.sum_cons]
      omega
    · rw [if_neg hfull]
      simp only [List.length_take, List.sum_cons]
      omega

/-- Nothing remains where there is room left. -/
theorem consume_remain (remain : Bytes) (sizes : List ℕ) (h : (consume remain sizes).left ≠ 0) :
    (consume remain sizes).remain = [] := by
  induction sizes generalizing remain with
  | nil => exact absurd rfl h
  | cons size sizes ih =>
    rw [consume] at h ⊢
    by_cases hfull : size - min size remain.length = 0
    · rw [if_pos hfull] at h ⊢
      exact ih _ h
    · rw [if_neg hfull]
      exact List.drop_eq_nil_iff.mpr (by omega)

theorem consume_rest (remain : Bytes) (sizes : List ℕ) (h : (consume remain sizes).left = 0) :
    (consume remain sizes).rest = [] := by
  induction sizes generalizing remain with
  | nil => rfl
  | cons size sizes ih =>
    rw [consume] at h ⊢
    by_cases hfull : size - min size remain.length = 0
    · rw [if_pos hfull] at h ⊢
      exact ih _ h
    · rw [if_neg hfull] at h
      exact absurd h hfull

/-- A call that waits, and how many bytes it still waits for. -/
def ReadCall.Waiting : ReadCall → Prop
  | .read sizes _ left rest done => 0 < left ∧ done.length + left + rest.sum = sizes.sum
  | .views size got => got.flatten.length < size

/-- The bytes that a call has. -/
def ReadCall.bytes : ReadCall → Bytes
  | .read _ _ _ _ done => done
  | .views _ got => got.flatten

/-- What comes of a call that has had the bytes of `input`: they are with it, and it returns what it
asks for. -/
def ReadOutcome.Sound (request : ReadRequest) (input : Bytes) : ReadOutcome → Prop
  | .waits call => call.request = request ∧ call.bytes = input ∧ call.Waiting
  | .returns bytes remain => bytes ++ remain = input ∧ request.Exact bytes
  | .fails => True

theorem nextBuffers_sound {sizes : List ℕ} {readSome : Bool} {done remain : Bytes} {rest : List ℕ}
    (h : done.length + rest.sum = sizes.sum) :
    (ReadCall.nextBuffers sizes readSome done remain rest).Sound (.read sizes readSome)
      (done ++ remain) := by
  have happend := consume_append remain rest
  have hsum := consume_sum remain rest
  rw [ReadCall.nextBuffers]
  by_cases hleft : (consume remain rest).left = 0
  · rw [if_pos hleft]
    rw [consume_rest remain rest hleft, hleft] at hsum
    have hlen : (done ++ (consume remain rest).bytes).length = sizes.sum := by
      rw [List.length_append]
      simp only [List.sum_nil] at hsum
      omega
    exact ⟨by rw [List.append_assoc, happend], hlen.le, fun _ => hlen⟩
  · rw [if_neg hleft]
    rw [consume_remain remain rest hleft, List.append_nil] at happend
    refine ⟨rfl, congrArg _ happend, Nat.pos_of_ne_zero hleft, ?_⟩
    rw [List.length_append]
    omega

theorem nextView_sound {size : ℕ} {got : List Bytes} (h : got.flatten.length ≤ size) :
    (ReadCall.nextView size got).Sound (.views size) got.flatten := by
  rw [ReadCall.nextView]
  split
  · rename_i hlt
    exact ⟨rfl, rfl, hlt⟩
  · rename_i hnot
    exact ⟨List.append_nil _, le_antisymm h (not_lt.mp hnot)⟩

/-- A call takes what remains, unless it is more than a read of views asks for. -/
theorem start_sound {remain : Bytes} {request : ReadRequest}
    (h : ∀ size, request = .views size → remain.length ≤ size) :
    (request.start remain).Sound request remain := by
  cases request with
  | read sizes readSome =>
    have hsum : ([] : Bytes).length + sizes.sum = sizes.sum := Nat.zero_add _
    exact nextBuffers_sound hsum
  | views size =>
    have hviews : (if remain = [] then [] else [remain]).flatten = remain := by
      split <;> simp_all
    have hle : (if remain = [] then [] else [remain]).flatten.length ≤ size :=
      hviews.symm ▸ h size rfl
    have hsound := nextView_sound hle
    rwa [hviews] at hsound

/-- A call takes a message, or fails. -/
theorem receive_sound {call : ReadCall} (h : call.Waiting) (message : Bytes) :
    (call.receive message).Sound call.request (call.bytes ++ message) := by
  cases call with
  | read sizes readSome left rest done =>
    obtain ⟨hleft, hsum⟩ := h
    have htake := List.take_append_drop (min message.length left) message
    rw [ReadCall.receive]
    by_cases hsome : readSome = true
    · rw [if_pos hsome]
      refine ⟨by rw [List.append_assoc, htake]; rfl, ?_, fun hall => ?_⟩
      · rw [List.length_append, List.length_take]
        omega
      · rw [hsome] at hall
        cases hall
    · rw [if_neg hsome]
      by_cases hfull : left - min message.length left = 0
      · rw [if_pos hfull]
        have hdone : (done ++ message.take (min message.length left)).length + rest.sum =
            sizes.sum := by
          rw [List.length_append, List.length_take]
          omega
        have hsound : (ReadCall.nextBuffers sizes readSome
            (done ++ message.take (min message.length left))
            (message.drop (min message.length left)) rest).Sound (.read sizes readSome)
              (done ++ message.take (min message.length left) ++
                message.drop (min message.length left)) := nextBuffers_sound hdone
        rwa [List.append_assoc, htake] at hsound
      · rw [if_neg hfull]
        have hall : message.take (min message.length left) = message :=
          List.take_of_length_le (by omega)
        refine ⟨rfl, by rw [hall]; rfl, Nat.pos_of_ne_zero hfull, ?_⟩
        rw [List.length_append, List.length_take]
        omega
  | views size got =>
    rw [ReadCall.receive]
    split
    · trivial
    · rename_i hfits
      have hflat : (got ++ [message]).flatten = got.flatten ++ message := by simp
      have hle : (got ++ [message]).flatten.length ≤ size := by
        rw [hflat, List.length_append]
        exact not_lt.mp hfits
      have hsound := nextView_sound hle
      rwa [hflat] at hsound

/-- Messages that wait in the queue are taken in order, as many as the call needs. -/
theorem resume_sound {outcome : ReadOutcome} {request : ReadRequest} {input : Bytes}
    (h : outcome.Sound request input) (queue : List Bytes) :
    ∃ taken, queue = taken ++ (outcome.resume queue).2 ∧
      (outcome.resume queue).1.Sound request (input ++ taken.flatten) ∧
      ∀ call, (outcome.resume queue).1 = .waits call → (outcome.resume queue).2 = [] := by
  induction queue generalizing outcome input with
  | nil =>
    refine ⟨[], ?_, ?_, ?_⟩
    · cases outcome <;> rfl
    · have hresume : (outcome.resume []).1 = outcome := by cases outcome <;> rfl
      rw [hresume, List.flatten_nil, List.append_nil]
      exact h
    · intro call _
      cases outcome <;> rfl
  | cons message queue ih =>
    cases outcome with
    | waits call =>
      obtain ⟨rfl, rfl, hwaiting⟩ := h
      obtain ⟨taken, hqueue, hsound, hempty⟩ := ih (receive_sound hwaiting message)
      refine ⟨message :: taken, congrArg _ hqueue, ?_, hempty⟩
      rwa [List.append_assoc, ← List.flatten_cons] at hsound
    | returns bytes remain => exact ⟨[], rfl, by rwa [List.flatten_nil, List.append_nil], nofun⟩
    | fails => exact ⟨[], rfl, trivial, nofun⟩

namespace Reader

variable {capacity : ℕ} {r r' : Reader}

/-- The bytes that all calls have returned. -/
def output (r : Reader) : Bytes := r.returned.flatMap Prod.snd

/-! ### The invariant -/

structure Invariant (r : Reader) : Prop where
  stream : r.failed = false →
    r.output ++ ((r.current.map ReadCall.bytes).getD [] ++ r.remain ++ r.queue.flatten) =
      r.arrived.flatten
  isPrefix : r.output <+: r.arrived.flatten
  waiting : ∀ call, r.current = some call → call.Waiting ∧ r.remain = [] ∧ r.queue = [] ∧
    r.closed = false ∧ r.failed = false

theorem invariant_init : Invariant {} where
  stream _ := rfl
  isPrefix := List.prefix_rfl
  waiting := nofun

/-- A call returns the next bytes of the stream. -/
theorem invariant_returns {request : ReadRequest} {bytes remain : Bytes} {queue : List Bytes}
    (h : r.output ++ (bytes ++ remain ++ queue.flatten) = r.arrived.flatten) :
    Invariant (r.settle request (.returns bytes remain, queue)) := by
  have hout : (r.settle request (.returns bytes remain, queue)).output = r.output ++ bytes := by
    simp [settle, output]
  refine ⟨fun _ => ?_, ?_, nofun⟩
  · rw [hout]
    change r.output ++ bytes ++ ([] ++ remain ++ queue.flatten) = r.arrived.flatten
    rw [← h]
    simp
  · rw [hout]
    change r.output ++ bytes <+: r.arrived.flatten
    rw [← h]
    exact ⟨remain ++ queue.flatten, by simp⟩

/-- A call that has had some bytes goes on. -/
theorem invariant_settle {request : ReadRequest} {outcome : ReadOutcome} {queue : List Bytes}
    {input : Bytes} (hsound : outcome.Sound request input)
    (hempty : ∀ call, outcome = .waits call → queue = [])
    (hok : r.failed = false) (hinput : r.output ++ (input ++ queue.flatten) = r.arrived.flatten) :
    Invariant (r.settle request (outcome, queue)) := by
  have hprefix : r.output <+: r.arrived.flatten := ⟨_, hinput⟩
  cases outcome with
  | waits call =>
    obtain ⟨rfl, rfl, hwaiting⟩ := hsound
    obtain rfl := hempty call rfl
    rw [settle]
    by_cases hclosed : r.closed
    · rw [if_pos hclosed]
      exact ⟨nofun, hprefix, nofun⟩
    · rw [if_neg hclosed]
      refine ⟨fun _ => ?_, hprefix, ?_⟩
      · rw [← hinput]
        simp [output]
      · rintro _ ⟨⟩
        exact ⟨hwaiting, rfl, rfl, by simpa using hclosed, hok⟩
  | returns bytes remain =>
    obtain ⟨rfl, -⟩ := hsound
    exact invariant_returns hinput
  | fails => exact ⟨nofun, hprefix, nofun⟩

/-- A read of views that asks for less than what remains returns all of it. -/
theorem start_of_not_fits {size : ℕ} {remain : Bytes} (h : size < remain.length)
    (queue : List Bytes) :
    ((ReadRequest.views size).start remain).resume queue = (.returns remain [], queue) := by
  have hne : remain ≠ [] := List.ne_nil_of_length_pos (by omega)
  have hflat : [remain].flatten = remain := by simp
  rw [ReadRequest.start, if_neg hne, ReadCall.nextView, hflat, if_neg (not_lt.mpr h.le)]
  cases queue <;> rfl

/-- What is there of the stream when a call begins, and what the call takes of it. -/
theorem Invariant.call_sound (hr : Invariant r) (hidle : r.current = none)
    (hok : r.failed = false) (request : ReadRequest)
    (hfits : ReadEvent.Fits r (.call request)) :
    ∃ input, ((request.start r.remain).resume r.queue).1.Sound request input ∧
      r.output ++ (input ++ ((request.start r.remain).resume r.queue).2.flatten) =
        r.arrived.flatten ∧
      ∀ call, ((request.start r.remain).resume r.queue).1 = .waits call →
        ((request.start r.remain).resume r.queue).2 = [] := by
  have hstart : (request.start r.remain).Sound request r.remain := by
    refine start_sound fun size hsize => ?_
    subst hsize
    exact hfits
  obtain ⟨taken, hqueue, hsound, hempty⟩ := resume_sound hstart r.queue
  refine ⟨_, hsound, ?_, hempty⟩
  have hstream := hr.stream hok
  rw [hidle, Option.map_none, Option.getD_none, List.nil_append, hqueue, List.flatten_append,
    ← List.append_assoc r.remain] at hstream
  exact hstream

theorem Invariant.step (hr : Invariant r) {e : ReadEvent} (h : Reader.step capacity r e = some r') :
    Invariant r' := by
  cases e with
  | call request =>
    cases hc : r.current with
    | some call => simp [Reader.step, hc] at h
    | none =>
      simp only [Reader.step, hc] at h
      split at h
      · cases h
      · rename_i hok
        rw [Bool.not_eq_true] at hok
        cases h
        by_cases hfits : ReadEvent.Fits r (.call request)
        · obtain ⟨input, hsound, hinput, hempty⟩ := hr.call_sound hc hok request hfits
          exact invariant_settle hsound hempty hok hinput
        · -- more is returned than was asked for, but it is the next of the stream
          cases request with
          | read sizes readSome => exact absurd trivial hfits
          | views size =>
            rw [start_of_not_fits (not_le.mp hfits)]
            have hstream := hr.stream hok
            rw [hc, Option.map_none, Option.getD_none, List.nil_append] at hstream
            exact invariant_returns (by rw [List.append_nil]; exact hstream)
  | arrive byte bytes =>
    simp only [Reader.step] at h
    split at h
    · cases h
    · cases hc : r.current with
      | some call =>
        simp only [hc] at h
        cases h
        obtain ⟨hwaiting, hremain, hqueue, -, hok⟩ := hr.waiting call hc
        have hstream := hr.stream hok
        rw [hc, hremain, hqueue] at hstream
        rw [hqueue]
        refine invariant_settle (receive_sound hwaiting (byte :: bytes)) (fun _ _ => rfl) hok ?_
        change r.output ++ (call.bytes ++ byte :: bytes ++ []) =
          (r.arrived ++ [byte :: bytes]).flatten
        rw [List.flatten_append, ← hstream]
        simp
      | none =>
        have hstream := hr.stream
        rw [hc] at hstream
        simp only [hc] at h
        split at h
        · cases h
          refine ⟨fun hok => ?_, ?_, nofun⟩
          · change r.output ++ (((none : Option ReadCall).map ReadCall.bytes).getD [] ++ r.remain ++
              (r.queue ++ [byte :: bytes]).flatten) = (r.arrived ++ [byte :: bytes]).flatten
            rw [List.flatten_append, List.flatten_append, ← hstream hok]
            simp
          · change r.output <+: (r.arrived ++ [byte :: bytes]).flatten
            rw [List.flatten_append]
            exact hr.isPrefix.trans (List.prefix_append _ _)
        · cases h
          exact ⟨hstream, hr.isPrefix, nofun⟩
  | close =>
    cases hc : r.current with
    | some call =>
      simp only [Reader.step, hc] at h
      cases h
      exact ⟨nofun, hr.isPrefix, nofun⟩
    | none =>
      have hstream := hr.stream
      rw [hc] at hstream
      simp only [Reader.step, hc] at h
      cases h
      exact ⟨hstream, hr.isPrefix, nofun⟩

theorem invariant_of_reachable (h : (system capacity).Reachable r) : Invariant r :=
  h.invariant invariant_init fun _ _ _ hr _ hstep => hr.step hstep

/-- What the calls return are the first bytes of the stream, one call behind the other. -/
theorem returned_isPrefix (h : (system capacity).Reachable r) : r.output <+: r.arrived.flatten :=
  (invariant_of_reachable h).isPrefix

/-! ### As many bytes as asked for -/

def AllExact (r : Reader) : Prop := ∀ c ∈ r.returned, c.1.Exact c.2

theorem allExact_init : AllExact {} := fun _ hc => nomatch hc

/-- A call that returns soundly has returned what it was to. -/
theorem allExact_settle {request : ReadRequest} {outcome : ReadOutcome} {queue : List Bytes}
    {input : Bytes} (hsound : outcome.Sound request input) :
    AllExact (r.settle request (outcome, queue)) ↔ AllExact r := by
  cases outcome with
  | waits call =>
    rw [settle]
    split <;> rfl
  | returns bytes remain => simp [AllExact, settle, or_imp, forall_and, hsound.2]
  | fails => rfl

theorem Invariant.allExact_step_iff (hr : Invariant r) {e : ReadEvent}
    (h : Reader.step capacity r e = some r') : AllExact r' ↔ AllExact r ∧ e.Fits r := by
  cases e with
  | call request =>
    cases hc : r.current with
    | some call => simp [Reader.step, hc] at h
    | none =>
      simp only [Reader.step, hc] at h
      split at h
      · cases h
      · rename_i hok
        rw [Bool.not_eq_true] at hok
        cases h
        by_cases hfits : ReadEvent.Fits r (.call request)
        · obtain ⟨input, hsound, -, -⟩ := hr.call_sound hc hok request hfits
          exact (allExact_settle hsound).trans (and_iff_left hfits).symm
        · refine iff_of_false (fun hall => ?_) fun hall => hfits hall.2
          cases request with
          | read sizes readSome => exact hfits trivial
          | views size =>
            rw [start_of_not_fits (not_le.mp hfits)] at hall
            have hexact : r.remain.length = size :=
              hall (.views size, r.remain) (List.mem_append_right _ (List.mem_singleton_self _))
            exact hfits hexact.le
  | arrive byte bytes =>
    simp only [Reader.step] at h
    split at h
    · cases h
    · cases hc : r.current with
      | some call =>
        simp only [hc] at h
        cases h
        have hsound := receive_sound (hr.waiting call hc).1 (byte :: bytes)
        exact (allExact_settle hsound).trans (and_iff_left trivial).symm
      | none =>
        simp only [hc] at h
        split at h
        all_goals
          cases h
          exact (and_iff_left trivial).symm
  | close =>
    cases hc : r.current with
    | some call =>
      simp only [Reader.step, hc] at h
      cases h
      exact (and_iff_left trivial).symm
    | none =>
      simp only [Reader.step, hc] at h
      cases h
      exact (and_iff_left trivial).symm

/-- Each call has returned as many bytes as it asked for exactly where none of them was a read of
views that asked for less than what remained. -/
theorem exact_iff (h : (system capacity).Reachable r) :
    AllExact r ↔ (system capacity).Reaches ReadEvent.Fits r := by
  constructor
  · induction h with
    | init => exact fun _ => .init
    | step hreach _ hstep ih =>
      intro hall
      have := ((invariant_of_reachable hreach).allExact_step_iff hstep).mp hall
      exact .step (ih this.1) this.2 hstep
  · intro hr
    have := hr.invariant (I := fun r => Invariant r ∧ AllExact r) ⟨invariant_init, allExact_init⟩
      fun _ _ _ hr he hstep => ⟨hr.1.step hstep, (hr.1.allExact_step_iff hstep).mpr ⟨hr.2, he⟩⟩
    exact this.2

end Reader

end Yalantinglibs.CoroIo
