import Mathlib.Algebra.Order.Group.Nat
import Mathlib.Data.List.Basic
import Mathlib.Tactic.Common
import Yalantinglibs.Data.ByteCodec
import Yalantinglibs.Data.TransitionSystem

/-!
# Writing to an URMA socket

`async_write` of `coro_io/urma/urma_io.hpp`: the buffers of a call are copied into registered
buffers, each of which is posted as a message, and no more of them are in flight than the window has
room for. The transport delivers the messages in order, and takes none of them twice; a call that
finds no registered buffer while nothing is in flight ends with an error.

## Main definitions

* `fillChunk` — the bytes that go into the next message
* `Writer`, `WriteEvent`, `Writer.step` — a socket that is written to

## Main results

* `Writer.posted_flatten` — the messages have the bytes of the buffers
* `Writer.nonempty_iff` — when a message without bytes is posted
-/

set_option autoImplicit false

namespace Yalantinglibs.CoroIo

open TransitionSystem

/-! ### The model -/

/-- The loop of `post_next`: bytes are copied until the message has `size` of them, and buffers that
are used up are erased. -/
def fillChunk (size : ℕ) : Bytes → List Bytes → Bytes × List Bytes
  | message, [] => (message, [])
  | message, b :: bs =>
    if message.length < size then
      let count := min b.length (size - message.length)
      if b.drop count = [] then fillChunk size (message ++ b.take count) bs
      -- the message is full
      else (message ++ b.take count, b.drop count :: bs)
    else (message, b :: bs)

/-- A call of `async_write`. -/
structure WriteCall where
  /-- the buffers it was called with -/
  sequence : List Bytes
  /-- what is left of them -/
  buffers : List Bytes
  /-- the lengths of the messages that are not completed -/
  inFlight : List ℕ := []
  completed : ℕ := 0

structure Writer where
  /-- the calls that are over, with what they returned -/
  calls : List (List Bytes × ℕ) := []
  current : Option WriteCall := none
  /-- the messages of all calls -/
  posted : List Bytes := []
  /-- a call has ended with an error -/
  failed : Bool := false

inductive WriteEvent
  | call (sequence : List Bytes)
  /-- a registered buffer is there, and is filled and posted -/
  | post
  /-- there is none, and nothing to wait for -/
  | noBuffer
  /-- the call goes on as a message is completed -/
  | complete
  | finish

namespace Writer

/-- What happens to a socket whose messages have up to `size` bytes. -/
def step (size window : ℕ) (w : Writer) : WriteEvent → Option Writer
  | .call sequence =>
    match w.current with
    | none => if w.failed then none else some { w with current := some ⟨sequence, sequence, [], 0⟩ }
    | some _ => none
  | .post =>
    match w.current with
    | some c =>
      if c.buffers ≠ [] ∧ c.inFlight.length < window then
        let (message, buffers) := fillChunk size [] c.buffers
        some { w with
          current := some { c with buffers, inFlight := c.inFlight ++ [message.length] }
          posted := w.posted ++ [message] }
      else none
    | none => none
  | .noBuffer =>
    match w.current with
    | some c =>
      if c.buffers ≠ [] ∧ c.inFlight = [] then some { w with current := none, failed := true }
      else none
    | none => none
  | .complete =>
    match w.current with
    | some c =>
      match c.inFlight with
      | length :: inFlight =>
        some { w with current := some { c with inFlight, completed := c.completed + length } }
      | [] => none
    | none => none
  | .finish =>
    match w.current with
    | some c =>
      if c.buffers = [] ∧ c.inFlight = [] then
        some { w with calls := w.calls ++ [(c.sequence, c.completed)], current := none }
      else none
    | none => none

/-- A socket, where `send_window` is at least one. -/
def system (size sendWindow : ℕ) : TransitionSystem Writer WriteEvent :=
  ⟨{}, step size (max sendWindow 1)⟩

/-- The bytes that all calls have been called with. -/
def written (w : Writer) : Bytes :=
  w.calls.flatMap (fun c => c.1.flatten) ++ (w.current.map fun c => c.sequence.flatten).getD []

end Writer

/-- A message without bytes is posted for such buffers: the last one of them is empty, and the
others fill messages up. -/
def PostsEmpty (size : ℕ) (buffers : List Bytes) : Prop :=
  buffers ≠ [] ∧ (size = 0 ∨ buffers.getLast? = some [] ∧ size ∣ buffers.flatten.length)

/-- The buffers of a call do not have a message without bytes posted. -/
def WriteEvent.NoEmpty (size : ℕ) (_ : Writer) : WriteEvent → Prop
  | .call sequence => ¬PostsEmpty size sequence
  | _ => True

/-! ### A message -/

theorem fillChunk_flatten (size : ℕ) (message : Bytes) (bs : List Bytes) :
    (fillChunk size message bs).1 ++ (fillChunk size message bs).2.flatten =
      message ++ bs.flatten := by
  induction bs generalizing message with
  | nil => rfl
  | cons b bs ih =>
    rw [fillChunk]
    by_cases hlt : message.length < size
    · rw [if_pos hlt]
      dsimp only
      have hb := List.take_append_drop (min b.length (size - message.length)) b
      split
      · rename_i hdrop
        rw [hdrop, List.append_nil] at hb
        rw [ih, hb, List.flatten_cons, List.append_assoc]
      · rw [List.flatten_cons, List.append_assoc, ← List.append_assoc (List.take _ b), hb,
          List.flatten_cons]
    · rw [if_neg hlt]

theorem fillChunk_length_le (size : ℕ) (message : Bytes) (bs : List Bytes)
    (h : message.length ≤ size) : (fillChunk size message bs).1.length ≤ size := by
  induction bs generalizing message with
  | nil => exact h
  | cons b bs ih =>
    have hcopied : (message ++ b.take (min b.length (size - message.length))).length ≤ size := by
      rw [List.length_append, List.length_take]
      omega
    rw [fillChunk]
    by_cases hlt : message.length < size
    · rw [if_pos hlt]
      dsimp only
      split
      · exact ih _ hcopied
      · exact hcopied
    · rw [if_neg hlt]
      exact h

/-- A message that leaves buffers behind it is full, and the last one of them is empty if it was
before. -/
theorem fillChunk_of_ne_nil (size : ℕ) (message : Bytes) (bs : List Bytes)
    (h : message.length ≤ size) (hrest : (fillChunk size message bs).2 ≠ []) :
    (fillChunk size message bs).1.length = size ∧
      ((fillChunk size message bs).2.getLast? = some [] ↔ bs.getLast? = some []) := by
  induction bs generalizing message with
  | nil => exact absurd rfl hrest
  | cons b bs ih =>
    rw [fillChunk] at hrest ⊢
    by_cases hlt : message.length < size
    · rw [if_pos hlt] at hrest ⊢
      dsimp only at hrest ⊢
      split at hrest
      · rename_i hdrop
        rw [if_pos hdrop]
        have hcopied : (message ++ b.take (min b.length (size - message.length))).length ≤ size := by
          rw [List.length_append, List.length_take]
          omega
        obtain ⟨hfull, hlast⟩ := ih _ hcopied hrest
        refine ⟨hfull, hlast.trans ?_⟩
        cases bs with
        | nil => exact absurd rfl hrest
        | cons b' bs => rw [List.getLast?_cons_cons]
      · rename_i hdrop
        rw [if_neg hdrop]
        have hlong : size - message.length < b.length := by
          by_contra hle
          apply hdrop
          rw [List.drop_eq_nil_iff]
          omega
        refine ⟨?_, ?_⟩
        · rw [List.length_append, List.length_take]
          omega
        · cases bs with
          | nil =>
            rw [List.getLast?_singleton, List.getLast?_singleton]
            refine iff_of_false (fun heq => hdrop (Option.some.inj heq)) fun heq => ?_
            rw [Option.some.inj heq] at hlong
            exact absurd hlong (Nat.not_lt_zero _)
          | cons b' bs => rw [List.getLast?_cons_cons, List.getLast?_cons_cons]
    · rw [if_neg hlt]
      exact ⟨le_antisymm h (not_lt.mp hlt), Iff.rfl⟩

/-- A message is not full if the buffers are used up with an empty one. -/
theorem fillChunk_of_eq_nil (size : ℕ) (message : Bytes) (bs : List Bytes)
    (hlast : bs.getLast? = some []) (hrest : (fillChunk size message bs).2 = []) :
    (fillChunk size message bs).1.length < size := by
  induction bs generalizing message with
  | nil => cases hlast
  | cons b bs ih =>
    rw [fillChunk] at hrest ⊢
    by_cases hlt : message.length < size
    · rw [if_pos hlt] at hrest ⊢
      dsimp only at hrest ⊢
      split at hrest
      · rename_i hdrop
        rw [if_pos hdrop]
        cases bs with
        | nil =>
          rw [List.getLast?_singleton] at hlast
          rw [Option.some.inj hlast, List.take_nil, List.append_nil]
          exact hlt
        | cons b' bs => exact ih _ (by rwa [List.getLast?_cons_cons] at hlast) hrest
      · cases hrest
    · rw [if_neg hlt] at hrest
      cases hrest

/-- A message is empty only if there are no bytes left for it. -/
theorem postsEmpty_of_eq_nil {size : ℕ} {bs : List Bytes} (hbs : bs ≠ [])
    (h : (fillChunk size [] bs).1 = []) : PostsEmpty size bs := by
  refine ⟨hbs, or_iff_not_imp_left.mpr fun hsize => ?_⟩
  have hrest : (fillChunk size [] bs).2 = [] := by
    by_contra hne
    have hfull := (fillChunk_of_ne_nil size [] bs (Nat.zero_le _) hne).1
    rw [h] at hfull
    exact hsize hfull.symm
  have hflat : bs.flatten = [] := by
    have := fillChunk_flatten size [] bs
    rwa [h, hrest, List.flatten_nil, List.append_nil, List.nil_append, eq_comm] at this
  refine ⟨?_, by rw [hflat]; exact Nat.dvd_zero _⟩
  rw [List.getLast?_eq_some_getLast hbs]
  exact congrArg some (List.flatten_eq_nil_iff.mp hflat _ (List.getLast_mem hbs))

/-- A message with bytes leaves it open whether there will be one without. -/
theorem postsEmpty_rest_iff {size : ℕ} {bs : List Bytes} (h : (fillChunk size [] bs).1 ≠ []) :
    PostsEmpty size (fillChunk size [] bs).2 ↔ PostsEmpty size bs := by
  have hpos := List.length_pos_of_ne_nil h
  have hle := fillChunk_length_le size [] bs (Nat.zero_le _)
  have hsize : size ≠ 0 := by omega
  have hlen := congrArg List.length (fillChunk_flatten size [] bs)
  rw [List.length_append, List.nil_append] at hlen
  have hbs : bs ≠ [] := by
    rintro rfl
    exact h rfl
  by_cases hrest : (fillChunk size [] bs).2 = []
  · refine iff_of_false (fun hempty => hempty.1 hrest) ?_
    rintro ⟨-, hzero | ⟨hlast, hdvd⟩⟩
    · exact hsize hzero
    · have hlt := fillChunk_of_eq_nil size [] bs hlast hrest
      rw [hrest, List.flatten_nil, List.length_nil, Nat.add_zero] at hlen
      rw [← hlen] at hdvd
      exact absurd (Nat.le_of_dvd hpos hdvd) (not_le.mpr hlt)
  · obtain ⟨hfull, hlast⟩ := fillChunk_of_ne_nil size [] bs (Nat.zero_le _) hrest
    rw [hfull] at hlen
    unfold PostsEmpty
    rw [hlast, ← hlen, Nat.dvd_add_right (Nat.dvd_refl size)]
    simp only [ne_eq, hrest, hbs, not_false_eq_true, true_and]

namespace Writer

variable {size window sendWindow : ℕ} {w w' : Writer}

/-! ### The invariant -/

structure Invariant (size : ℕ) (w : Writer) : Prop where
  /-- what is not posted of the buffers is left in them -/
  flatten : w.failed = false →
    w.posted.flatten ++ (w.current.map fun c => c.buffers.flatten).getD [] = w.written
  length_le : ∀ m ∈ w.posted, m.length ≤ size
  completed : ∀ c, w.current = some c →
    c.completed + c.inFlight.sum + c.buffers.flatten.length = c.sequence.flatten.length
  calls : ∀ c ∈ w.calls, c.2 = c.1.flatten.length

theorem invariant_init : Invariant size {} where
  flatten _ := rfl
  length_le := nofun
  completed := nofun
  calls := nofun

theorem Invariant.step (hw : Invariant size w) {e : WriteEvent}
    (h : Writer.step size window w e = some w') : Invariant size w' := by
  cases e with
  | call sequence =>
    cases hc : w.current with
    | some c => simp [Writer.step, hc] at h
    | none =>
      simp only [Writer.step, hc] at h
      split at h
      · cases h
      · cases h
        have hflat := hw.flatten
        rw [written, hc] at hflat
        refine ⟨fun hok => ?_, hw.length_le, ?_, hw.calls⟩
        · have := hflat hok
          simp only [Option.map_none, Option.getD_none, List.append_nil] at this
          simp [written, this]
        · rintro c ⟨⟩
          simp
  | post =>
    cases hc : w.current with
    | none => simp [Writer.step, hc] at h
    | some c =>
      simp only [Writer.step, hc] at h
      split at h
      · cases h
        have hchunk := fillChunk_flatten size [] c.buffers
        rw [List.nil_append] at hchunk
        have hflat := hw.flatten
        rw [written, hc] at hflat
        refine ⟨fun hok => ?_, ?_, ?_, hw.calls⟩
        · have := hflat hok
          simp only [Option.map_some, Option.getD_some, ← hchunk] at this
          simp only [written, Option.map_some, Option.getD_some, ← this, List.flatten_append,
            List.flatten_singleton, List.append_assoc]
        · intro m hm
          rcases List.mem_append.mp hm with hold | hnew
          · exact hw.length_le m hold
          · rw [List.mem_singleton.mp hnew]
            exact fillChunk_length_le _ _ _ (Nat.zero_le _)
        · rintro _ ⟨⟩
          have := hw.completed c hc
          have hlen := congrArg List.length hchunk
          rw [List.length_append] at hlen
          simp only [List.sum_append, List.sum_singleton]
          omega
      · cases h
  | noBuffer =>
    cases hc : w.current with
    | none => simp [Writer.step, hc] at h
    | some c =>
      simp only [Writer.step, hc] at h
      split at h
      · cases h
        exact ⟨nofun, hw.length_le, nofun, hw.calls⟩
      · cases h
  | complete =>
    cases hc : w.current with
    | none => simp [Writer.step, hc] at h
    | some c =>
      simp only [Writer.step, hc] at h
      split at h
      · rename_i length inFlight hflight
        cases h
        have hflat := hw.flatten
        rw [written, hc] at hflat
        refine ⟨hflat, hw.length_le, ?_, hw.calls⟩
        rintro _ ⟨⟩
        have := hw.completed c hc
        rw [hflight, List.sum_cons] at this
        dsimp only
        omega
      · cases h
  | finish =>
    cases hc : w.current with
    | none => simp [Writer.step, hc] at h
    | some c =>
      simp only [Writer.step, hc] at h
      split at h
      · rename_i hdone
        cases h
        have hflat := hw.flatten
        rw [written, hc] at hflat
        refine ⟨fun hok => ?_, hw.length_le, nofun, ?_⟩
        · have := hflat hok
          simp only [Option.map_some, Option.getD_some, hdone.1, List.flatten_nil,
            List.append_nil] at this
          simp [written, this]
        · intro c' hc'
          rcases List.mem_append.mp hc' with hold | hnew
          · exact hw.calls c' hold
          · have := hw.completed c hc
            rw [List.mem_singleton.mp hnew]
            simp only [hdone.1, hdone.2, List.sum_nil, List.flatten_nil, List.length_nil] at this
            exact this
      · cases h

theorem invariant_of_reachable (h : (system size sendWindow).Reachable w) : Invariant size w :=
  h.invariant invariant_init fun _ _ _ hw _ hstep => hw.step hstep

/-- Once a call is over, the messages have the bytes of all calls, none has too many, and each call
has returned the number of its bytes. -/
theorem posted_flatten (h : (system size sendWindow).Reachable w) (hidle : w.current = none)
    (hok : w.failed = false) :
    w.posted.flatten = w.written ∧ (∀ m ∈ w.posted, m.length ≤ size) ∧
      ∀ c ∈ w.calls, c.2 = c.1.flatten.length := by
  have hw := invariant_of_reachable h
  have hflat := hw.flatten hok
  rw [hidle, Option.map_none, Option.getD_none, List.append_nil] at hflat
  exact ⟨hflat, hw.length_le, hw.calls⟩

/-! ### Messages without bytes -/

/-- No message is empty, and the running call has none posted. -/
def NoneEmpty (size : ℕ) (w : Writer) : Prop :=
  (∀ m ∈ w.posted, m ≠ []) ∧ ∀ c, w.current = some c → ¬PostsEmpty size c.buffers

theorem noneEmpty_step_iff {e : WriteEvent} (h : step size window w e = some w')
    (hok : w'.failed = false) : NoneEmpty size w' ↔ NoneEmpty size w ∧ e.NoEmpty size w := by
  cases e with
  | call sequence =>
    cases hc : w.current with
    | some c => simp [step, hc] at h
    | none =>
      simp only [step, hc] at h
      split at h
      · cases h
      · cases h
        simp [NoneEmpty, WriteEvent.NoEmpty, hc]
  | post =>
    cases hc : w.current with
    | none => simp [step, hc] at h
    | some c =>
      simp only [step, hc] at h
      split at h
      · rename_i hpost
        cases h
        by_cases hempty : (fillChunk size [] c.buffers).1 = []
        · refine iff_of_false (fun hall => ?_) fun hall => ?_
          · exact hall.1 _ (List.mem_append_right _ (List.mem_singleton_self _)) hempty
          · exact hall.1.2 c hc (postsEmpty_of_eq_nil hpost.1 hempty)
        · simp [NoneEmpty, WriteEvent.NoEmpty, hc, or_imp, forall_and, hempty,
            postsEmpty_rest_iff hempty]
      · cases h
  | noBuffer =>
    cases hc : w.current with
    | none => simp [step, hc] at h
    | some c =>
      simp only [step, hc] at h
      split at h
      · cases h
        cases hok
      · cases h
  | complete =>
    cases hc : w.current with
    | none => simp [step, hc] at h
    | some c =>
      simp only [step, hc] at h
      split at h
      · cases h
        simp [NoneEmpty, WriteEvent.NoEmpty, hc]
      · cases h
  | finish =>
    cases hc : w.current with
    | none => simp [step, hc] at h
    | some c =>
      simp only [step, hc] at h
      split at h
      · rename_i hdone
        cases h
        simp [NoneEmpty, WriteEvent.NoEmpty, hc, hdone.1, PostsEmpty]
      · cases h

theorem failed_of_step {e : WriteEvent} (h : step size window w e = some w')
    (hok : w'.failed = false) : w.failed = false := by
  unfold step at h
  split at h <;> (repeat' split at h)
  all_goals
    cases h
    try first | exact hok | cases hok

/-- The runs whose calls have no message without bytes posted are those that come to a state with no
such message. -/
theorem reaches_noEmpty_iff (h : (system size sendWindow).Reachable w) (hok : w.failed = false) :
    (system size sendWindow).Reaches (WriteEvent.NoEmpty size) w ↔ NoneEmpty size w := by
  constructor
  · intro hr
    clear h
    induction hr with
    | init => exact ⟨nofun, nofun⟩
    | step _ he hstep ih =>
      exact (noneEmpty_step_iff hstep hok).mpr ⟨ih (failed_of_step hstep hok), he⟩
  · induction h with
    | init => exact fun _ => .init
    | step _ _ hstep ih =>
      intro hnone
      have := (noneEmpty_step_iff hstep hok).mp hnone
      exact .step (ih (failed_of_step hstep hok) this.1) this.2 hstep

/-- Once the calls are over, there is no message without bytes exactly where none of the calls has
had one posted. -/
theorem nonempty_iff (h : (system size sendWindow).Reachable w) (hidle : w.current = none)
    (hok : w.failed = false) :
    (∀ m ∈ w.posted, m ≠ []) ↔ (system size sendWindow).Reaches (WriteEvent.NoEmpty size) w := by
  rw [reaches_noEmpty_iff h hok]
  constructor
  · intro hall
    refine ⟨hall, fun c hc => ?_⟩
    rw [hidle] at hc
    cases hc
  · exact fun hnone => hnone.1

end Writer

end Yalantinglibs.CoroIo
