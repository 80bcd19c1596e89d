import Mathlib.Data.List.GetD
import Yalantinglibs.Data.BoundedQueue

/-!
# The circle buffer

`coro_io/detail/circle_buffer.hpp`: `front_` stands one place before the oldest element and `end_`
at the newest, so that both stand at the same place when the buffer is empty and when it is full. A
flag tells which of the two operations was the last.

## Main definitions

* `CircleBuffer` — the storage, the indices and the flag
* `CircleBuffer.trace` — what is seen after each of some operations
* `CircleBuffer.Represents` — the elements that are in the buffer

## Main results

* `trace_new` — a circle buffer is a queue bounded by its capacity
-/

set_option autoImplicit false

namespace Yalantinglibs.CoroIo

open BoundedQueue

variable {T : Type*}

/-- `circle_buffer`. -/
structure CircleBuffer (T : Type*) where
  queue : List T
  front : ℕ
  end_ : ℕ
  mayEmpty : Bool

/-- What the constructor takes, a number of type `uint32_t` other than zero. -/
structure Capacity where
  size : ℕ
  pos : 0 < size
  lt : size < 4294967296

namespace CircleBuffer

/-- The constructor, with the elements that `resize` makes. -/
def new (capacity : Capacity) (fill : T) : CircleBuffer T where
  queue := List.replicate capacity.size fill
  front := 0
  end_ := 0
  mayEmpty := true

variable (b : CircleBuffer T)

/-- `(i + 1) % queue.size()`, with the sum of type `uint32_t`. -/
def next (i : ℕ) : ℕ := (i + 1) % 4294967296 % b.queue.length

def full : Bool := b.end_ = b.front && !b.mayEmpty

def empty : Bool := b.end_ = b.front && b.mayEmpty

def size : ℕ :=
  if b.front > b.end_ then b.queue.length + b.end_ - b.front
  else if b.front = b.end_ then
    if b.empty then 0 else b.queue.length
  else b.end_ - b.front

/-- `push`, unless it is called on a full buffer or leaves the storage. -/
def push (elem : T) : Option (CircleBuffer T) :=
  if b.full then none
  else
    let end_ := b.next b.end_
    if end_ < b.queue.length then
      some { b with mayEmpty := false, end_ := end_, queue := b.queue.set end_ elem }
    else none

/-- `pop`, unless it is called on an empty buffer or leaves the storage. What is left of the element
is what a move leaves. -/
def pop (moved : T → T) : Option (T × CircleBuffer T) :=
  if b.empty then none
  else
    let front := b.next b.front
    b.queue[front]?.map fun elem =>
      (elem, { b with front := front, mayEmpty := true, queue := b.queue.set front (moved elem) })

/-- `back()` and `front()`, which are for a buffer that is not empty. -/
def backElem : Option T := if b.empty then none else b.queue[b.end_]?

def frontElem : Option T := if b.empty then none else b.queue[b.next b.front]?

def step (moved : T → T) : Op T → Option (Option T × CircleBuffer T)
  | .push elem => (b.push elem).map fun b => (none, b)
  | .pop => (b.pop moved).map fun (elem, b) => (some elem, b)

def view (popped : Option T) : View T where
  popped := popped
  size := b.size
  full := b.full
  empty := b.empty
  front := b.frontElem
  back := b.backElem

/-- What is seen after each operation. -/
def trace (moved : T → T) : CircleBuffer T → List (Op T) → Option (List (View T))
  | _, [] => some []
  | b, op :: ops =>
    (b.step moved op).bind fun (popped, b) =>
      (trace moved b ops).map fun views => b.view popped :: views

/-! ### The elements in the buffer -/

/-- Places less than a round apart are different. -/
theorem mod_ne_mod {n a d : ℕ} (hlt : a < d) (hround : d < a + n) : d % n ≠ a % n := by
  intro heq
  have hmod := Nat.sub_mod_eq_zero_of_mod_eq heq
  rw [Nat.mod_eq_of_lt (by omega)] at hmod
  omega

/-- The elements stand behind `front_`, in order, up to `end_`. -/
structure Represents (c : Capacity) (b : CircleBuffer T) (elems : List T) : Prop where
  length : b.queue.length = c.size
  front_lt : b.front < c.size
  le : elems.length ≤ c.size
  end_eq : b.end_ = (b.front + elems.length) % c.size
  mayEmpty_of_nil : elems = [] → b.mayEmpty = true
  mayEmpty_of_full : elems.length = c.size → b.mayEmpty = false
  cells : ∀ i, i < elems.length → b.queue[(b.front + 1 + i) % c.size]? = elems[i]?

theorem represents_new (c : Capacity) (fill : T) : Represents c (new c fill) [] where
  length := List.length_replicate
  front_lt := c.pos
  le := Nat.zero_le _
  end_eq := (Nat.zero_mod _).symm
  mayEmpty_of_nil _ := rfl
  mayEmpty_of_full h := absurd h (Nat.ne_of_lt c.pos)
  cells i hi := absurd hi (Nat.not_lt_zero i)

namespace Represents

variable {c : Capacity} {b : CircleBuffer T} {elems : List T}

/-- Both indices stand at one place if the buffer is empty or full, and only then. -/
theorem end_eq_front_iff (h : Represents c b elems) :
    b.end_ = b.front ↔ elems = [] ∨ elems.length = c.size := by
  have hfront := h.front_lt
  have hle := h.le
  rw [h.end_eq]
  by_cases hlt : b.front + elems.length < c.size
  · rw [Nat.mod_eq_of_lt hlt, ← List.length_eq_zero_iff]
    omega
  · rw [Nat.mod_eq_sub_mod (Nat.le_of_not_lt hlt), Nat.mod_eq_of_lt (by omega),
      ← List.length_eq_zero_iff]
    omega

theorem next_eq (h : Represents c b elems) {i : ℕ} (hi : i < c.size) :
    b.next i = (i + 1) % c.size := by
  have hlt := c.lt
  rw [next, h.length, Nat.mod_eq_of_lt (by omega : i + 1 < 4294967296)]

theorem empty_iff (h : Represents c b elems) : b.empty = true ↔ elems = [] := by
  have hpos := c.pos
  rw [empty, Bool.and_eq_true, decide_eq_true_eq, h.end_eq_front_iff]
  constructor
  · rintro ⟨hnil | hfull, hmay⟩
    · exact hnil
    · rw [h.mayEmpty_of_full hfull] at hmay
      cases hmay
  · exact fun hnil => ⟨Or.inl hnil, h.mayEmpty_of_nil hnil⟩

theorem full_iff (h : Represents c b elems) : b.full = true ↔ elems.length = c.size := by
  rw [full, Bool.and_eq_true, decide_eq_true_eq, h.end_eq_front_iff, Bool.not_eq_true']
  constructor
  · rintro ⟨hnil | hfull, hmay⟩
    · rw [h.mayEmpty_of_nil hnil] at hmay
      cases hmay
    · exact hfull
  · exact fun hfull => ⟨Or.inr hfull, h.mayEmpty_of_full hfull⟩

theorem size_eq (h : Represents c b elems) : b.size = elems.length := by
  have hfront := h.front_lt
  have hle := h.le
  have hend := h.end_eq
  have hsame := h.end_eq_front_iff
  rw [size, h.length]
  by_cases heq : b.front = b.end_
  · rw [if_neg (by omega), if_pos heq]
    split_ifs with hempty
    · rw [h.empty_iff.mp hempty, List.length_nil]
    · exact ((hsame.mp heq.symm).resolve_left fun hnil => hempty (h.empty_iff.mpr hnil)).symm
  · have hlt : elems.length < c.size :=
      Nat.lt_of_le_of_ne hle fun hfull => heq (hsame.mpr (Or.inr hfull)).symm
    rw [if_neg heq]
    by_cases hwrap : b.front + elems.length < c.size
    · rw [Nat.mod_eq_of_lt hwrap] at hend
      rw [if_neg (by omega)]
      omega
    · -- the newest element stands in front of the oldest one
      rw [Nat.mod_eq_sub_mod (Nat.le_of_not_lt hwrap), Nat.mod_eq_of_lt (by omega)] at hend
      rw [if_pos (by omega)]
      omega

theorem frontElem_eq (h : Represents c b elems) : b.frontElem = elems.head? := by
  rw [frontElem]
  split_ifs with hempty
  · rw [h.empty_iff.mp hempty]
    rfl
  · have hpos : 0 < elems.length :=
      List.length_pos_iff.mpr fun hnil => hempty (h.empty_iff.mpr hnil)
    have hcell := h.cells 0 hpos
    rw [Nat.add_zero] at hcell
    rw [h.next_eq h.front_lt, hcell, List.head?_eq_getElem?]

theorem backElem_eq (h : Represents c b elems) : b.backElem = elems.getLast? := by
  rw [backElem]
  split_ifs with hempty
  · rw [h.empty_iff.mp hempty]
    rfl
  · have hpos : 0 < elems.length :=
      List.length_pos_iff.mpr fun hnil => hempty (h.empty_iff.mpr hnil)
    have hcell := h.cells (elems.length - 1) (by omega)
    have hplace : b.front + 1 + (elems.length - 1) = b.front + elems.length := by omega
    rw [hplace, ← h.end_eq] at hcell
    rw [hcell, List.getLast?_eq_getElem?]

theorem view_eq (h : Represents c b elems) (popped : Option T) :
    b.view popped = BoundedQueue.view c.size popped elems := by
  have hfull : b.full = decide (elems.length = c.size) := by
    rw [Bool.eq_iff_iff, h.full_iff, decide_eq_true_eq]
  have hempty : b.empty = elems.isEmpty := by
    rw [Bool.eq_iff_iff, h.empty_iff, List.isEmpty_iff]
  rw [CircleBuffer.view, BoundedQueue.view, h.size_eq, hfull, hempty, h.frontElem_eq, h.backElem_eq]

/-! ### Operations -/

theorem push_eq_none (h : Represents c b elems) (hfull : ¬ elems.length < c.size) (elem : T) :
    b.push elem = none :=
  if_pos (h.full_iff.mpr (Nat.le_antisymm h.le (Nat.le_of_not_lt hfull)))

/-- A new element goes behind the newest one, into a place of its own. -/
theorem exists_push (h : Represents c b elems) (hlt : elems.length < c.size) (elem : T) :
    ∃ b', b.push elem = some b' ∧ Represents c b' (elems ++ [elem]) := by
  have hpos := c.pos
  have hfront := h.front_lt
  have hend : b.end_ < c.size := h.end_eq ▸ Nat.mod_lt _ hpos
  have hnext : b.next b.end_ = (b.front + (elems.length + 1)) % c.size := by
    rw [h.next_eq hend, h.end_eq, Nat.mod_add_mod, Nat.add_assoc]
  have hnotfull : ¬ b.full = true := fun hfull => Nat.ne_of_lt hlt (h.full_iff.mp hfull)
  have hin : b.next b.end_ < b.queue.length := by
    rw [hnext, h.length]
    exact Nat.mod_lt _ hpos
  refine ⟨_, (if_neg hnotfull).trans (if_pos hin), ?_⟩
  constructor
  · rw [List.length_set, h.length]
  · exact hfront
  · rw [List.length_append, List.length_singleton]
    exact hlt
  · rw [hnext, List.length_append, List.length_singleton]
  · exact fun hnil => absurd hnil (by simp)
  · exact fun _ => rfl
  · intro i hi
    rw [List.length_append, List.length_singleton] at hi
    by_cases hnew : i = elems.length
    · have hplace : (b.front + 1 + i) % c.size = b.next b.end_ := by
        rw [hnext, hnew, Nat.add_assoc, Nat.add_comm 1]
      rw [hplace, List.getElem?_set_self hin, hnew]
      simp
    · have hlt : i < elems.length := by omega
      have hne : b.next b.end_ ≠ (b.front + 1 + i) % c.size := by
        rw [hnext]
        exact mod_ne_mod (by omega) (by omega)
      rw [List.getElem?_set_ne hne, h.cells i hlt, List.getElem?_append_left hlt]

theorem pop_eq_none (h : Represents c b []) (moved : T → T) : b.pop moved = none :=
  if_pos (h.empty_iff.mpr rfl)

/-- The oldest element goes out, and the others stay where they are. -/
theorem exists_pop {elem : T} (h : Represents c b (elem :: elems)) (moved : T → T) :
    ∃ b', b.pop moved = some (elem, b') ∧ Represents c b' elems := by
  have hpos := c.pos
  have hle := h.le
  rw [List.length_cons] at hle
  have hcell := h.cells 0 (Nat.succ_pos _)
  rw [Nat.add_zero, ← h.next_eq h.front_lt, List.getElem?_cons_zero] at hcell
  have hnotempty : ¬ b.empty = true := fun hempty => List.cons_ne_nil _ _ (h.empty_iff.mp hempty)
  refine ⟨{ b with
    front := b.next b.front, mayEmpty := true, queue := b.queue.set (b.next b.front) (moved elem) },
    ?_, ?_⟩
  · rw [pop, if_neg hnotempty]
    dsimp only
    rw [hcell]
    rfl
  have hnext := h.next_eq h.front_lt
  constructor
  · exact (List.length_set).trans h.length
  · dsimp only
    rw [hnext]
    exact Nat.mod_lt _ hpos
  · omega
  · dsimp only
    rw [h.end_eq, hnext, Nat.mod_add_mod, List.length_cons, Nat.add_assoc, Nat.add_comm 1]
  · exact fun _ => rfl
  · exact fun hfull => absurd hfull (by omega)
  · intro i hi
    have hplace : (b.next b.front + 1 + i) % c.size = (b.front + 1 + (i + 1)) % c.size := by
      rw [hnext, Nat.add_assoc, Nat.mod_add_mod, Nat.add_assoc, Nat.add_comm 1 i, Nat.add_assoc]
    have hne : b.next b.front ≠ (b.front + 1 + (i + 1)) % c.size := by
      rw [hnext]
      exact (mod_ne_mod (by omega) (by omega)).symm
    dsimp only
    rw [hplace, List.getElem?_set_ne hne, h.cells (i + 1) (by rw [List.length_cons]; omega),
      List.getElem?_cons_succ]

/-- An operation does to the buffer what it does to the queue. -/
theorem step_eq (h : Represents c b elems) (moved : T → T) (op : Op T) :
    (b.step moved op = none ∧ BoundedQueue.step c.size elems op = none) ∨
      ∃ popped b' elems', b.step moved op = some (popped, b') ∧
        BoundedQueue.step c.size elems op = some (popped, elems') ∧ Represents c b' elems' := by
  cases op with
  | push elem =>
    by_cases hlt : elems.length < c.size
    · obtain ⟨b', hpush, hb'⟩ := h.exists_push hlt elem
      exact Or.inr ⟨none, b', elems ++ [elem], by rw [CircleBuffer.step, hpush]; rfl,
        if_pos hlt, hb'⟩
    · exact Or.inl ⟨by rw [CircleBuffer.step, h.push_eq_none hlt]; rfl, if_neg hlt⟩
  | pop =>
    cases elems with
    | nil => exact Or.inl ⟨by rw [CircleBuffer.step, h.pop_eq_none]; rfl, rfl⟩
    | cons elem elems =>
      obtain ⟨b', hpop, hb'⟩ := h.exists_pop moved
      exact Or.inr ⟨some elem, b', elems, by rw [CircleBuffer.step, hpop]; rfl, rfl, hb'⟩

/-- After any operations the same is seen of the buffer as of the queue. -/
theorem trace_eq (h : Represents c b elems) (moved : T → T) (ops : List (Op T)) :
    b.trace moved ops = BoundedQueue.trace c.size elems ops := by
  induction ops generalizing b elems with
  | nil => rfl
  | cons op ops ih =>
    rw [CircleBuffer.trace, BoundedQueue.trace]
    rcases h.step_eq moved op with ⟨hnone, hnone'⟩ | ⟨popped, b', elems', hsome, hsome', hb'⟩
    · rw [hnone, hnone']
      rfl
    · rw [hsome, hsome', Option.bind_some, Option.bind_some]
      dsimp only
      rw [hb'.view_eq, ih hb']

end Represents

/-- A circle buffer is a queue bounded by its capacity: what is seen of it after each operation is
what is seen of the queue, an operation is possible on both or on none, and the elements come out in
the order in which they went in. -/
theorem trace_new (c : Capacity) (fill : T) (moved : T → T) (ops : List (Op T)) :
    (new c fill).trace moved ops = BoundedQueue.trace c.size [] ops ∧
      ∀ views, (new c fill).trace moved ops = some views →
        views.filterMap View.popped <+: pushed ops := by
  have htrace := (represents_new c fill).trace_eq moved ops
  refine ⟨htrace, fun views hviews => ?_⟩
  rw [htrace] at hviews
  obtain ⟨rest, hrest⟩ := order_of_trace hviews
  exact ⟨rest, hrest⟩

end CircleBuffer

end Yalantinglibs.CoroIo
