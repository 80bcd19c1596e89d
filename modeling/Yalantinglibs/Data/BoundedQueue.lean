import Mathlib.Data.List.Basic

/-!
# Queues of a bounded length

A queue takes elements as long as it is not full, and gives them back in the order in which they
came. What can be seen of it after an operation is the element that was taken out, how many there
are, and the oldest and the newest.

## Main definitions

* `BoundedQueue.step` — one operation
* `BoundedQueue.trace` — what is seen after each of some operations

## Main results

* `order_of_trace` — the elements come out in the order in which they went in
-/

set_option autoImplicit false

namespace Yalantinglibs.BoundedQueue

variable {α : Type*}

/-- The operations of a queue. -/
inductive Op (α : Type*)
  | push (a : α)
  | pop

/-- What is seen after an operation. -/
structure View (α : Type*) where
  popped : Option α
  size : ℕ
  full : Bool
  empty : Bool
  front : Option α
  back : Option α

/-- An operation on a queue of some capacity, unless it is full or empty. -/
def step (capacity : ℕ) (queue : List α) : Op α → Option (Option α × List α)
  | .push a => if queue.length < capacity then some (none, queue ++ [a]) else none
  | .pop =>
    match queue with
    | [] => none
    | a :: rest => some (some a, rest)

def view (capacity : ℕ) (popped : Option α) (queue : List α) : View α where
  popped := popped
  size := queue.length
  full := queue.length = capacity
  empty := queue.isEmpty
  front := queue.head?
  back := queue.getLast?

/-- What is seen after each operation. -/
def trace (capacity : ℕ) : List α → List (Op α) → Option (List (View α))
  | _, [] => some []
  | queue, op :: ops =>
    (step capacity queue op).bind fun (popped, queue) =>
      (trace capacity queue ops).map fun views => view capacity popped queue :: views

/-- The elements that go in. -/
def pushed (ops : List (Op α)) : List α :=
  ops.filterMap fun op =>
    match op with
    | .push a => some a
    | .pop => none

/-- The elements come out in the order in which they went in, and the others are still there. -/
theorem order_of_trace {capacity : ℕ} {queue : List α} {ops : List (Op α)} {views : List (View α)}
    (h : trace capacity queue ops = some views) :
    ∃ rest, views.filterMap View.popped ++ rest = queue ++ pushed ops := by
  induction ops generalizing queue views with
  | nil =>
    obtain rfl := Option.some_inj.mp h
    exact ⟨queue, (List.append_nil queue).symm⟩
  | cons op ops ih =>
    rw [trace] at h
    obtain ⟨⟨popped, queue'⟩, hstep, h⟩ := Option.bind_eq_some_iff.mp h
    obtain ⟨views', htrace, rfl⟩ := Option.map_eq_some_iff.mp h
    obtain ⟨rest, hrest⟩ := ih htrace
    refine ⟨rest, ?_⟩
    cases op with
    | push a =>
      rw [step] at hstep
      split_ifs at hstep
      obtain ⟨rfl, rfl⟩ := Prod.mk.inj (Option.some_inj.mp hstep)
      simpa [view, pushed] using hrest
    | pop =>
      cases queue with
      | nil => cases hstep
      | cons a queue =>
        obtain ⟨rfl, rfl⟩ := Prod.mk.inj (Option.some_inj.mp hstep)
        simpa [view, pushed] using hrest

end Yalantinglibs.BoundedQueue
