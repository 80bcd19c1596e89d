import Mathlib.Algebra.Order.Group.Multiset
import Mathlib.Data.Multiset.AddSub
import Mathlib.Data.Multiset.Filter
import Mathlib.Tactic.Common
import Mathlib.Tactic.Push

/-!
# The queue of idle clients

`coro_io/detail/client_queue.hpp`. A client pool keeps its idle clients in two queues. Clients are
put into the selected one; the collector selects the other one from time to time and drops idle
clients of the one that is not selected, which have not been used since. Each queue has a counter.
The collector takes the dropped clients off the counter of the other queue.

A concurrent queue is a multiset: which client a `try_dequeue` takes is up to the queue, and part of
a call here. Its clients are pointers of eight bytes in a memory of less than `2 ^ 64` bytes.

## Main definitions

* `ClientQueue`, `ClientQueue.call` — the queues with their counters, and the calls
* `Meets` — what a call is to do
* `KeepsBusy` — a call of `clear_old` comes to busy clients only

## Main results

* `tryDequeue_eq`, `clearOld_eq` — what the calls do to the queues
* `along_meets_iff` — a sequence of calls meets what they are to do if and only if none of them
  drops a client
-/

set_option autoImplicit false

namespace Yalantinglibs.CoroIo

/-- A client in a queue, with the number of `reselect` before it was enqueued. The number is a
record that no call reads. -/
structure Held (α : Type) where
  client : α
  since : ℕ
deriving DecidableEq

/-- `client_queue`, with a record of the calls of `reselect` and of whether a counter has been taken
below zero. -/
structure ClientQueue (α : Type) where
  /-- `queue_` -/
  queue : Bool → Multiset (Held α)
  /-- `selected_index_` -/
  selected : Bool
  /-- `size_` -/
  size : Bool → ℕ
  reselects : ℕ
  underflown : Bool

namespace ClientQueue

variable {α : Type} [DecidableEq α]

/-- The constructor. -/
def create : ClientQueue α where
  queue := fun _ => 0
  selected := false
  size := fun _ => 0
  reselects := 0
  underflown := false

def setQueue (s : ClientQueue α) (i : Bool) (q : Multiset (Held α)) : ClientQueue α :=
  { s with queue := Function.update s.queue i q }

def setSize (s : ClientQueue α) (i : Bool) (n : ℕ) : ClientQueue α :=
  { s with size := Function.update s.size i n }

/-- `queue_[i].enqueue`, for a client that has been in the queue. -/
def put (s : ClientQueue α) (i : Bool) (c : Held α) : ClientQueue α :=
  s.setQueue i (c ::ₘ s.queue i)

/-- `queue_[i].try_dequeue`, where the queue hands out `c`. -/
def take (s : ClientQueue α) (i : Bool) (c : Held α) : Option (ClientQueue α) :=
  if c ∈ s.queue i then some (s.setQueue i ((s.queue i).erase c)) else none

/-- `size_[i] -= n`, which wraps around below zero. -/
def subSize (s : ClientQueue α) (i : Bool) (n : ℕ) : ClientQueue α :=
  { s.setSize i ((s.size i + (2 ^ 64 - n)) % 2 ^ 64) with
    underflown := s.underflown || s.size i < n }

/-- `reselect`. -/
def reselect (s : ClientQueue α) : ClientQueue α :=
  { s with selected := !s.selected, reselects := s.reselects + 1 }

/-- `enqueue`, where the queue has or has not got memory for another client. -/
def enqueue (s : ClientQueue α) (c : α) (stored : Bool) : Option (ℕ × ClientQueue α) :=
  let index := s.selected
  let cnt := (s.size index + 1) % 2 ^ 64
  let s := s.setSize index cnt
  if stored then
    if 8 * ((s.queue index).card + 1) < 2 ^ 64 then some (cnt, s.put index ⟨c, s.reselects⟩) else none
  else some (0, s.subSize index 1)

/-- `try_dequeue_connect_reuse_impl`: instead of a busy client another one of the queue is handed
out, if that is less busy. A client without a pipeline is as one with an empty one. -/
def tryDequeueConnectReuseImpl (pipeline : α → ℕ) (s : ClientQueue α) (c : Held α) (index : Bool)
    (c2 : Held α) : Option (Held α × ClientQueue α) :=
  if pipeline c.client ≥ 10 then
    if s.size index > 1 ∧ s.queue index ≠ 0 then
      (s.take index c2).map fun s =>
        if pipeline c2.client < pipeline c.client then (c2, (s.put index c).subSize index 1)
        else (c, (s.put index c2).subSize index 1)
    else some (c, s.subSize index 1)
  else some (c, s.subSize index 1)

/-- `try_dequeue`, where the queue hands out `c` first, and `c2` when it is asked again. -/
def tryDequeue (pipeline : α → ℕ) (s : ClientQueue α) (c c2 : Held α) :
    Option (Option (Held α) × ClientQueue α) :=
  let index := s.selected
  if s.queue index ≠ 0 then
    (s.take index c).bind fun s =>
      (tryDequeueConnectReuseImpl pipeline s c index c2).map fun p => (some p.1, p.2)
  else if s.queue (!index) ≠ 0 then
    (s.take (!index) c).bind fun s =>
      (tryDequeueConnectReuseImpl pipeline s c (!index) c2).map fun p => (some p.1, p.2)
  else some (none, s)

/-- The first loop of `clear_old`, of so many rounds at most, over a queue that hands out `taken`:
the queue, `using_clients` and `clear_cnt` at its end. -/
def clearLoop (pipeline : α → ℕ) :
    ℕ → Multiset (Held α) → List (Held α) → ℕ → List (Held α) →
      Option (Multiset (Held α) × List (Held α) × ℕ)
  | 0, q, usingClients, clearCnt, [] => some (q, usingClients, clearCnt)
  | 0, _, _, _, _ :: _ => none
  | _ + 1, q, usingClients, clearCnt, [] => if q = 0 then some (q, usingClients, clearCnt) else none
  | rounds + 1, q, usingClients, clearCnt, c :: taken =>
    if c ∈ q then
      clearLoop pipeline rounds (q.erase c)
        (if pipeline c.client ≠ 0 then usingClients ++ [c] else usingClients) (clearCnt + 1) taken
    else none

/-- `clear_old`, where the queue hands out `taken`. -/
def clearOld (pipeline : α → ℕ) (s : ClientQueue α) (maxClearCnt : ℕ) (taken : List (Held α)) :
    Option ((Bool × ℕ) × ClientQueue α) :=
  let index := !s.selected
  (clearLoop pipeline maxClearCnt (s.queue index) [] 0 taken).map fun (q, usingClients, clearCnt) =>
    let realClearCnt := clearCnt - usingClients.length
    ((clearCnt < maxClearCnt, realClearCnt),
      (s.setQueue index (q + usingClients)).subSize s.selected realClearCnt)

end ClientQueue

open ClientQueue

/-- A call, with the pipelines of the clients at the time and with what the queues hand out. -/
inductive Call (α : Type)
  | enqueue (c : α) (stored : Bool)
  | tryDequeue (pipeline : α → ℕ) (c c2 : Held α)
  | reselect
  | clearOld (pipeline : α → ℕ) (maxClearCnt : ℕ) (taken : List (Held α))

/-- What a call returns. -/
inductive Reply (α : Type)
  | enqueued (cnt : ℕ)
  | dequeued (c : Option (Held α))
  | reselected
  | cleared (allCleared : Bool) (realClearCnt : ℕ)

/-- The clients in the queues. -/
def ClientQueue.held {α : Type} (s : ClientQueue α) : Multiset (Held α) :=
  s.queue false + s.queue true

/-- Each counter is the number of clients in its queue, and none has been taken below zero. -/
def ClientQueue.Counted {α : Type} (s : ClientQueue α) : Prop :=
  (∀ i, s.size i = (s.queue i).card) ∧ s.underflown = false

/-! ### The clients and the counters -/

section Clients

namespace ClientQueue

variable {α : Type} {s s' : ClientQueue α} {i : Bool} {q : Multiset (Held α)} {n : ℕ}

@[simp] theorem queue_setQueue : (s.setQueue i q).queue = Function.update s.queue i q := rfl

@[simp] theorem size_setQueue : (s.setQueue i q).size = s.size := rfl

@[simp] theorem queue_subSize : (s.subSize i n).queue = s.queue := rfl

theorem held_eq (s : ClientQueue α) (i : Bool) : s.held = s.queue i + s.queue (!i) := by
  cases i with
  | false => rfl
  | true => exact add_comm _ _

theorem held_setQueue : (s.setQueue i q).held = q + s.queue (!i) := by
  rw [held_eq _ i, queue_setQueue, Function.update_self, Function.update_of_ne (Bool.not_ne_self i)]

/-- A queue loses `n` clients, and its counter follows. -/
theorem Counted.subSize (hs : s.Counted) (hsmall : (s.queue i).card < 2 ^ 64)
    (hq : q.card + n = (s.queue i).card) : ((s.setQueue i q).subSize i n).Counted := by
  obtain ⟨hsize, hunder⟩ := hs
  have hn := hsize i
  refine ⟨fun j => ?_, ?_⟩
  · by_cases hij : j = i
    · subst hij
      change Function.update s.size j _ j = (Function.update s.queue j q j).card
      rw [Function.update_self, Function.update_self, size_setQueue, hn]
      omega
    · change Function.update s.size i _ j = (Function.update s.queue i q j).card
      rw [Function.update_of_ne hij, Function.update_of_ne hij]
      exact hsize j
  · change (s.underflown || decide (s.size i < n)) = false
    rw [hunder, Bool.false_or, decide_eq_false_iff_not, hn]
    omega

/-- A counter that goes up and down again. -/
theorem Counted.setSize_subSize (hs : s.Counted) (hsmall : (s.queue i).card + 1 < 2 ^ 64) :
    ((s.setSize i ((s.size i + 1) % 2 ^ 64)).subSize i 1).Counted := by
  have hn := hs.1 i
  refine ⟨fun j => ?_, ?_⟩
  · change Function.update (Function.update s.size i _) i ((Function.update s.size i _ i + _) % _) j =
      (s.queue j).card
    by_cases hij : j = i
    · rw [hij, Function.update_self, Function.update_self, hn]
      omega
    · rw [Function.update_of_ne hij, Function.update_of_ne hij]
      exact hs.1 j
  · change (s.underflown || decide (Function.update s.size i _ i < 1)) = false
    rw [hs.2, Bool.false_or, decide_eq_false_iff_not, Function.update_self, hn]
    omega

/-- The clients in the queue that is not selected were enqueued before the last `reselect`. -/
structure Valid (s : ClientQueue α) : Prop where
  small : ∀ i, 8 * (s.queue i).card < 2 ^ 64
  old : ∀ c ∈ s.queue (!s.selected), c.since < s.reselects
  since : ∀ c ∈ s.queue s.selected, c.since ≤ s.reselects

theorem valid_create : (create : ClientQueue α).Valid where
  small := fun _ => by simp [create]
  old := fun _ hc => absurd hc (Multiset.notMem_zero _)
  since := fun _ hc => absurd hc (Multiset.notMem_zero _)

/-- Fewer clients are in order, too. -/
theorem Valid.setQueue (hs : s.Valid) (hq : q ≤ s.queue i) : (s.setQueue i q).Valid := by
  have hsub : ∀ j, (s.setQueue i q).queue j ≤ s.queue j := by
    intro j
    by_cases hij : j = i
    · subst hij
      rwa [queue_setQueue, Function.update_self]
    · rw [queue_setQueue, Function.update_of_ne hij]
  exact ⟨fun j => (Nat.mul_le_mul_left 8 (Multiset.card_le_card (hsub j))).trans_lt (hs.small j),
    fun c hc => hs.old c (Multiset.mem_of_le (hsub _) hc),
    fun c hc => hs.since c (Multiset.mem_of_le (hsub _) hc)⟩

theorem Valid.subSize (hs : s.Valid) : (s.subSize i n).Valid := ⟨hs.small, hs.old, hs.since⟩

theorem setQueue_setQueue {q' : Multiset (Held α)} :
    (s.setQueue i q).setQueue i q' = s.setQueue i q' := by
  rw [setQueue, setQueue, setQueue]
  simp only [Function.update_idem]

theorem setQueue_self : s.setQueue i (s.queue i) = s := by
  rw [setQueue, Function.update_eq_self]

end ClientQueue

end Clients

section Calls

variable {α : Type} [DecidableEq α]

/-- A call, if the queues can hand out what they are to. -/
def ClientQueue.call (s : ClientQueue α) : Call α → Option (Reply α × ClientQueue α)
  | .enqueue c stored => (s.enqueue c stored).map fun p => (.enqueued p.1, p.2)
  | .tryDequeue pipeline c c2 => (s.tryDequeue pipeline c c2).map fun p => (.dequeued p.1, p.2)
  | .reselect => some (.reselected, s.reselect)
  | .clearOld pipeline maxClearCnt taken =>
    (s.clearOld pipeline maxClearCnt taken).map fun p => (.cleared p.1.1 p.1.2, p.2)

/-- What a call does to the clients: none is lost or duplicated, `try_dequeue` fails when there is
none, and `clear_old` drops as many as it reports, which have no request in flight and were enqueued
before the last `reselect`. -/
def Moves (s : ClientQueue α) (s' : ClientQueue α) : Call α → Reply α → Prop
  | .enqueue c stored, .enqueued _ =>
    s'.held = if stored then ⟨c, s.reselects⟩ ::ₘ s.held else s.held
  | .tryDequeue _ _ _, .dequeued (some c) => s.held = c ::ₘ s'.held
  | .tryDequeue _ _ _, .dequeued none => s.held = 0 ∧ s'.held = 0
  | .reselect, .reselected => s'.held = s.held
  | .clearOld pipeline _ _, .cleared _ realClearCnt =>
    ∃ dropped : Multiset (Held α), s.held = dropped + s'.held ∧ realClearCnt = dropped.card ∧
      ∀ c ∈ dropped, pipeline c.client = 0 ∧ c.since < s.reselects
  | _, _ => False

/-- What a call is to do. -/
def Meets (s : ClientQueue α) (call : Call α) (reply : Reply α) (s' : ClientQueue α) : Prop :=
  s'.Counted ∧ Moves s s' call reply

/-- All clients that a `clear_old` takes from the queue have requests in flight. -/
def KeepsBusy : Call α → Prop
  | .clearOld pipeline _ taken => ∀ c ∈ taken, pipeline c.client ≠ 0
  | _ => True

/-- A property of each call in a sequence. -/
def Along (P : ClientQueue α → Call α → Reply α → ClientQueue α → Prop) :
    ClientQueue α → List (Call α) → Prop
  | _, [] => True
  | s, call :: calls =>
    ∀ reply s', s.call call = some (reply, s') → P s call reply s' ∧ Along P s' calls

/-! ### What the calls do -/

namespace ClientQueue

variable {s s' : ClientQueue α} {i : Bool} {q : Multiset (Held α)} {pipeline : α → ℕ}
  {c c2 c' : Held α}

theorem take_eq (h : s.take i c = some s') :
    ∃ q, s.queue i = c ::ₘ q ∧ s' = s.setQueue i q := by
  rw [take] at h
  split_ifs at h with hmem
  cases h
  exact ⟨_, (Multiset.cons_erase hmem).symm, rfl⟩

/-- Of the client that has been taken and those in its queue one is handed out. -/
theorem tryDequeueConnectReuseImpl_eq
    (h : tryDequeueConnectReuseImpl pipeline s c i c2 = some (c', s')) :
    ∃ q, c' ::ₘ q = c ::ₘ s.queue i ∧ s' = (s.setQueue i q).subSize i 1 := by
  have hkeep (h : some (c, s.subSize i 1) = some (c', s')) :
      ∃ q, c' ::ₘ q = c ::ₘ s.queue i ∧ s' = (s.setQueue i q).subSize i 1 := by
    cases h
    exact ⟨s.queue i, rfl, by rw [setQueue_self]⟩
  rw [tryDequeueConnectReuseImpl] at h
  by_cases hbusy : pipeline c.client ≥ 10
  · rw [if_pos hbusy] at h
    by_cases hmore : s.size i > 1 ∧ s.queue i ≠ 0
    · rw [if_pos hmore] at h
      obtain ⟨s₁, htake, hs₁⟩ := Option.map_eq_some_iff.mp h
      obtain ⟨q, hq, rfl⟩ := take_eq htake
      simp only [put, setQueue_setQueue, queue_setQueue, Function.update_self] at hs₁
      split_ifs at hs₁
      · cases hs₁
        exact ⟨c ::ₘ q, by rw [hq, Multiset.cons_swap], rfl⟩
      · cases hs₁
        exact ⟨c2 ::ₘ q, by rw [hq], rfl⟩
    · rw [if_neg hmore] at h
      exact hkeep h
  · rw [if_neg hbusy] at h
    exact hkeep h

/-- `try_dequeue` fails when both queues are empty, and takes one client of a queue otherwise. -/
theorem tryDequeue_eq {r : Option (Held α)} (h : s.tryDequeue pipeline c c2 = some (r, s')) :
    (r = none ∧ s' = s ∧ s.held = 0) ∨
      ∃ c' i q, r = some c' ∧ s.queue i = c' ::ₘ q ∧ s' = (s.setQueue i q).subSize i 1 := by
  have hpick : ∀ i, ((s.take i c).bind fun s => (tryDequeueConnectReuseImpl pipeline s c i c2).map
      fun p => (some p.1, p.2)) = some (r, s') →
      ∃ c' i q, r = some c' ∧ s.queue i = c' ::ₘ q ∧ s' = (s.setQueue i q).subSize i 1 := by
    intro i hi
    obtain ⟨s₁, htake, hs₁⟩ := Option.bind_eq_some_iff.mp hi
    obtain ⟨⟨c', s₂⟩, hreuse, heq⟩ := Option.map_eq_some_iff.mp hs₁
    obtain ⟨q, hq, rfl⟩ := take_eq htake
    obtain ⟨q', hq', rfl⟩ := tryDequeueConnectReuseImpl_eq hreuse
    rw [queue_setQueue, Function.update_self] at hq'
    cases heq
    exact ⟨c', i, q', rfl, by rw [hq, hq'], by rw [setQueue_setQueue]⟩
  rw [tryDequeue] at h
  split_ifs at h with hselected hother
  · exact .inr (hpick _ h)
  · exact .inr (hpick _ h)
  · cases h
    refine .inl ⟨rfl, rfl, ?_⟩
    rw [held_eq s s.selected, not_not.mp hselected, not_not.mp hother, add_zero]

/-- The loop of `clear_old` keeps the busy ones of the clients that it takes. -/
theorem clearLoop_eq {rounds cnt : ℕ} {usingClients usingClients' taken : List (Held α)}
    {q' : Multiset (Held α)} {cnt' : ℕ}
    (h : clearLoop pipeline rounds q usingClients cnt taken = some (q', usingClients', cnt')) :
    q = ↑taken + q' ∧ usingClients' =
      usingClients ++ taken.filter (fun c => pipeline c.client ≠ 0) ∧
      cnt' = cnt + taken.length := by
  induction taken generalizing rounds q usingClients cnt with
  | nil =>
    cases rounds with
    | zero =>
      cases h
      exact ⟨by simp, by simp, rfl⟩
    | succ rounds =>
      rw [clearLoop] at h
      split_ifs at h
      cases h
      exact ⟨by simp, by simp, rfl⟩
  | cons c taken ih =>
    cases rounds with
    | zero => cases h
    | succ rounds =>
      rw [clearLoop] at h
      split_ifs at h with hmem hbusy
      · obtain ⟨hq, husing, hcnt⟩ := ih h
        refine ⟨?_, ?_, ?_⟩
        · rw [← Multiset.cons_coe, Multiset.cons_add, ← hq, Multiset.cons_erase hmem]
        · rw [husing, List.filter_cons_of_pos (by simpa using hbusy), List.append_assoc]
          rfl
        · rw [hcnt, List.length_cons]
          omega
      · obtain ⟨hq, husing, hcnt⟩ := ih h
        refine ⟨?_, ?_, ?_⟩
        · rw [← Multiset.cons_coe, Multiset.cons_add, ← hq, Multiset.cons_erase hmem]
        · rw [husing, List.filter_cons_of_neg (by simpa using hbusy)]
        · rw [hcnt, List.length_cons]
          omega

/-- `clear_old` drops the clients without a request in flight of those that it takes, and takes
their number off the counter of the other queue. -/
theorem clearOld_eq {maxClearCnt : ℕ} {taken : List (Held α)} {all : Bool} {n : ℕ}
    (h : s.clearOld pipeline maxClearCnt taken = some ((all, n), s')) :
    ∃ q, s.queue (!s.selected) = ↑(taken.filter fun c => pipeline c.client = 0) + q ∧
      n = (taken.filter fun c => pipeline c.client = 0).length ∧
      s' = (s.setQueue (!s.selected) q).subSize s.selected n := by
  obtain ⟨⟨q, usingClients, cnt⟩, hloop, heq⟩ := Option.map_eq_some_iff.mp h
  obtain ⟨hq, rfl, rfl⟩ := clearLoop_eq hloop
  have hsplit : (↑(taken.filter fun c => pipeline c.client = 0) : Multiset (Held α)) +
      ↑(taken.filter fun c => pipeline c.client ≠ 0) = ↑taken := by
    rw [← Multiset.filter_coe, ← Multiset.filter_coe]
    exact Multiset.filter_add_not _ _
  have hlen := congrArg Multiset.card hsplit
  rw [Multiset.card_add, Multiset.coe_card, Multiset.coe_card, Multiset.coe_card] at hlen
  have hn : 0 + taken.length - (taken.filter fun c => pipeline c.client ≠ 0).length =
      (taken.filter fun c => pipeline c.client = 0).length := by
    omega
  simp only [List.nil_append, hn, Prod.mk.injEq] at heq
  obtain ⟨⟨-, rfl⟩, rfl⟩ := heq
  exact ⟨_, by rw [hq, ← hsplit, add_assoc, add_comm (q : Multiset (Held α))], rfl, rfl⟩

/-! ### A call -/

variable {call : Call α} {reply : Reply α}

omit [DecidableEq α] in
theorem valid_put {c : α} (hs : s.Valid) (hsmall : 8 * ((s.queue s.selected).card + 1) < 2 ^ 64)
    (m : ℕ) : ((s.setSize s.selected m).put s.selected ⟨c, s.reselects⟩).Valid := by
  refine ⟨fun i => ?_, fun d hd => ?_, fun d hd => ?_⟩
  · change 8 * (Function.update s.queue s.selected (⟨c, s.reselects⟩ ::ₘ s.queue s.selected) i).card < _
    by_cases hi : i = s.selected
    · rw [hi, Function.update_self, Multiset.card_cons]
      exact hsmall
    · rw [Function.update_of_ne hi]
      exact hs.small i
  · change d ∈ Function.update s.queue s.selected _ (!s.selected) at hd
    rw [Function.update_of_ne (Bool.not_ne_self _)] at hd
    exact hs.old d hd
  · change d ∈ Function.update s.queue s.selected (⟨c, s.reselects⟩ ::ₘ s.queue s.selected)
      s.selected at hd
    rw [Function.update_self] at hd
    obtain rfl | hd := Multiset.mem_cons.mp hd
    · exact le_refl _
    · exact hs.since d hd

omit [DecidableEq α] in
/-- `enqueue` puts the client into the selected queue, or leaves everything as it is. -/
theorem enqueue_eq {c : α} {stored : Bool} {cnt : ℕ} (h : s.enqueue c stored = some (cnt, s')) :
    (stored = true ∧ 8 * ((s.queue s.selected).card + 1) < 2 ^ 64 ∧
        s' = (s.setSize s.selected ((s.size s.selected + 1) % 2 ^ 64)).put s.selected
          ⟨c, s.reselects⟩) ∨
      stored = false ∧ cnt = 0 ∧
        s' = (s.setSize s.selected ((s.size s.selected + 1) % 2 ^ 64)).subSize s.selected 1 := by
  rw [enqueue] at h
  cases stored with
  | true =>
    by_cases hsmall : 8 * ((s.queue s.selected).card + 1) < 2 ^ 64
    · have hroom : (if 8 * ((s.queue s.selected).card + 1) < 2 ^ 64 then some _ else none) = _ := h
      rw [if_pos hsmall] at hroom
      cases hroom
      exact .inl ⟨rfl, hsmall, rfl⟩
    · have hroom : (if 8 * ((s.queue s.selected).card + 1) < 2 ^ 64 then some _ else none) = _ := h
      rw [if_neg hsmall] at hroom
      cases hroom
  | false =>
    cases h
    exact .inr ⟨rfl, rfl, rfl⟩

/-- No client is lost or duplicated by a call, and only old and idle ones are dropped. -/
theorem moves_of_call (hs : s.Valid) (h : s.call call = some (reply, s')) :
    Moves s s' call reply ∧ s'.Valid := by
  cases call with
  | enqueue c stored =>
    obtain ⟨⟨cnt, s₁⟩, henqueue, heq⟩ := Option.map_eq_some_iff.mp h
    cases heq
    obtain ⟨rfl, hsmall, rfl⟩ | ⟨rfl, -, rfl⟩ := enqueue_eq henqueue
    · refine ⟨?_, valid_put hs hsmall _⟩
      change ((s.setSize s.selected _).setQueue s.selected _).held = ⟨c, s.reselects⟩ ::ₘ s.held
      rw [held_setQueue, held_eq s s.selected]
      exact Multiset.cons_add _ _ _
    · exact ⟨rfl, hs.small, hs.old, hs.since⟩
  | tryDequeue pipeline c c2 =>
    obtain ⟨⟨r, s₁⟩, hdequeue, heq⟩ := Option.map_eq_some_iff.mp h
    cases heq
    obtain ⟨rfl, rfl, hheld⟩ | ⟨c', i, q, rfl, hq, rfl⟩ := tryDequeue_eq hdequeue
    · exact ⟨⟨hheld, hheld⟩, hs⟩
    · refine ⟨?_, (hs.setQueue (hq ▸ Multiset.le_cons_self q c')).subSize⟩
      change s.held = c' ::ₘ (s.setQueue i q).held
      rw [held_setQueue, held_eq s i, hq, Multiset.cons_add]
  | reselect =>
    cases h
    refine ⟨rfl, hs.small, fun c hc => ?_, fun c hc => ?_⟩
    · have hselected : (!s.reselect.selected) = s.selected := Bool.not_not _
      rw [hselected] at hc
      exact Nat.lt_succ_of_le (hs.since c hc)
    · exact ((hs.old c hc).trans (Nat.lt_succ_self _)).le
  | clearOld pipeline maxClearCnt taken =>
    obtain ⟨⟨⟨all, n⟩, s₁⟩, hclear, heq⟩ := Option.map_eq_some_iff.mp h
    cases heq
    obtain ⟨q, hq, rfl, rfl⟩ := clearOld_eq hclear
    refine ⟨⟨_, ?_, (Multiset.coe_card _).symm, fun c hc => ?_⟩,
      (hs.setQueue (hq ▸ Multiset.le_add_left q _)).subSize⟩
    · change s.held = _ + (s.setQueue (!s.selected) q).held
      rw [held_setQueue, held_eq s (!s.selected), hq, add_assoc]
    · have hold := hs.old c (hq ▸ Multiset.mem_add.mpr (.inl hc))
      exact ⟨of_decide_eq_true (List.mem_filter.mp (Multiset.mem_coe.mp hc)).2, hold⟩

/-- The counters follow a call if and only if it drops no client. -/
theorem counted_iff_of_call (hs : s.Valid) (hcount : s.Counted)
    (h : s.call call = some (reply, s')) :
    s'.Counted ↔ KeepsBusy call := by
  have hsmall : ∀ i, (s.queue i).card + 1 < 2 ^ 64 := fun i => by
    have := hs.small i
    omega
  cases call with
  | enqueue c stored =>
    refine iff_of_true ?_ trivial
    obtain ⟨⟨cnt, s₁⟩, henqueue, heq⟩ := Option.map_eq_some_iff.mp h
    cases heq
    obtain ⟨-, hroom, rfl⟩ | ⟨-, -, rfl⟩ := enqueue_eq henqueue
    · refine ⟨fun i => ?_, hcount.2⟩
      change Function.update s.size s.selected _ i =
        (Function.update s.queue s.selected (⟨c, s.reselects⟩ ::ₘ s.queue s.selected) i).card
      by_cases hi : i = s.selected
      · rw [hi, Function.update_self, Function.update_self, Multiset.card_cons, hcount.1]
        omega
      · rw [Function.update_of_ne hi, Function.update_of_ne hi]
        exact hcount.1 i
    · exact hcount.setSize_subSize (hsmall _)
  | tryDequeue pipeline c c2 =>
    refine iff_of_true ?_ trivial
    obtain ⟨⟨r, s₁⟩, hdequeue, heq⟩ := Option.map_eq_some_iff.mp h
    cases heq
    obtain ⟨rfl, rfl, -⟩ | ⟨c', i, q, rfl, hq, rfl⟩ := tryDequeue_eq hdequeue
    · exact hcount
    · exact hcount.subSize (Nat.lt_of_succ_lt (hsmall i)) (by rw [hq, Multiset.card_cons])
  | reselect =>
    cases h
    exact iff_of_true hcount trivial
  | clearOld pipeline maxClearCnt taken =>
    obtain ⟨⟨⟨all, n⟩, s₁⟩, hclear, heq⟩ := Option.map_eq_some_iff.mp h
    cases heq
    obtain ⟨q, hq, rfl, rfl⟩ := clearOld_eq hclear
    have hbusy : (taken.filter fun c => pipeline c.client = 0) = [] ↔
        KeepsBusy (.clearOld pipeline maxClearCnt taken) := by
      rw [List.filter_eq_nil_iff]
      simp [KeepsBusy]
    rw [← hbusy]
    constructor
    · intro hcount'
      -- the counter of the queue that loses the clients stays as it is
      have hold := hcount'.1 (!s.selected)
      change Function.update s.size s.selected _ (!s.selected) =
        (Function.update s.queue (!s.selected) q (!s.selected)).card at hold
      rw [Function.update_of_ne (Bool.not_ne_self _), Function.update_self, hcount.1, hq,
        Multiset.card_add, Multiset.coe_card] at hold
      exact List.eq_nil_of_length_eq_zero (by omega)
    · intro hnil
      rw [hnil, Multiset.coe_nil, zero_add] at hq
      rw [hnil, ← hq, setQueue_self, List.length_nil]
      have := hcount.subSize (Nat.lt_of_succ_lt (hsmall s.selected)) (Nat.add_zero _)
      rwa [setQueue_self] at this

end ClientQueue

/-! ### A sequence of calls -/

/-- What the calls do to the clients, and what the queues are like, is right in any sequence of
calls; the counters are right as long as no client is dropped. -/
theorem along_meets_iff_of_valid {s : ClientQueue α} (hs : s.Valid) (hcount : s.Counted)
    (calls : List (Call α)) :
    Along Meets s calls ↔ Along (fun _ call _ _ => KeepsBusy call) s calls := by
  induction calls generalizing s with
  | nil => exact Iff.rfl
  | cons call calls ih =>
    rw [Along, Along]
    apply forall_congr'
    intro reply
    apply forall_congr'
    intro s'
    apply imp_congr_right
    intro hcall
    obtain ⟨hmoves, hs'⟩ := moves_of_call hs hcall
    have hiff := counted_iff_of_call hs hcount hcall
    constructor
    · rintro ⟨hmeets, hrest⟩
      exact ⟨hiff.mp hmeets.1, (ih hs' hmeets.1).mp hrest⟩
    · rintro ⟨hbusy, hrest⟩
      exact ⟨⟨hiff.mpr hbusy, hmoves⟩, (ih hs' (hiff.mpr hbusy)).mpr hrest⟩

theorem along_moves_of_valid {s : ClientQueue α} (hs : s.Valid) (calls : List (Call α)) :
    Along (fun s call reply s' => Moves s s' call reply) s calls := by
  induction calls generalizing s with
  | nil => trivial
  | cons call calls ih =>
    intro reply s' hcall
    obtain ⟨hmoves, hs'⟩ := moves_of_call hs hcall
    exact ⟨hmoves, ih hs'⟩

omit [DecidableEq α] in
theorem counted_create : (create : ClientQueue α).Counted := ⟨fun _ => rfl, rfl⟩

/-- A sequence of calls meets what they are to do if and only if each `clear_old` comes to busy
clients only; what is said of the clients themselves holds of any sequence. -/
theorem along_meets_iff (calls : List (Call α)) :
    (Along Meets (create : ClientQueue α) calls ↔
        Along (fun _ call _ _ => KeepsBusy call) (create : ClientQueue α) calls) ∧
      Along (fun s call reply s' => Moves s s' call reply) (create : ClientQueue α) calls :=
  ⟨along_meets_iff_of_valid valid_create counted_create calls,
    along_moves_of_valid valid_create calls⟩

end Calls

/-- A client is enqueued and left idle until the collector drops it. -/
def idleClient : List (Call ℕ) :=
  [.enqueue 7 true, .reselect, .clearOld (fun _ => 0) 1000 [⟨7, 0⟩]]

/-- The queue is empty and its counter stays at one; the other counter has wrapped around. -/
theorem not_along_meets_idleClient : ¬ Along Meets create idleClient := by
  intro h
  have hreselect := (h _ _ rfl).2
  have hclear := (hreselect _ _ rfl).2
  have hmeets := (hclear _ _ rfl).1
  have hsize := hmeets.1.1 false
  exact absurd hsize (by decide)

end Yalantinglibs.CoroIo
