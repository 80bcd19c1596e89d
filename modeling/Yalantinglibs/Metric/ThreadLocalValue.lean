import Mathlib.Algebra.BigOperators.Group.List.Basic
import Mathlib.Data.BitVec
import Mathlib.Tactic.Abel
import Mathlib.Tactic.Common
import Yalantinglibs.Data.TransitionSystem

/-!
# Striped values

`metric/thread_local_value.hpp`. A value is the sum of stripes, which are allocated when they are
first used. Each thread adds to a stripe of its own; `update` sets the first stripe, and takes what
is in the others one after the other.

The threads run in turns, from one atomic access to the next. The pointer of a stripe does not
change once it is set, so a load of it in front of an access to the stripe is no step of its own.
The values are those of a commutative group, as are the integers of a machine.

## Main definitions

* `ThreadLocalValue`, `ThreadLocalValue.step` — the stripes and the calls in progress, and a step of
  one of them
* `ThreadLocalValue.value` — the sum of the stripes
* `copyConstruct`, `copyAssign`, `moveAssign` — the stripes of a copy
* `kept` — the stripes that a copy assignment leaves as they are

## Main results

* `conserves_of_reachable` — no increment is lost or counted twice
* `exists_step_of_reachable` — a call in progress always has a step
* `value_copyAssign` — the value of a target that is assigned to
* `conserves_and_copies_iff` — when a copy has the value of its source
-/

set_option autoImplicit false

namespace Yalantinglibs.Metric

variable {V : Type} [AddCommGroup V]

/-- The calls that change a value. `reset` is `update` with zero. -/
inductive Operation (V : Type)
  | inc (value : V)
  | dec (value : V)
  | update (value : V)

/-- What a call adds to the value, beside what it takes away and returns. -/
def Operation.amount : Operation V → V
  | .inc value => value
  | .dec value => -value
  | .update value => value

/-- Where a call stands. -/
inductive Phase (V : Type)
  /-- `get_value`, before the test of the pointer -/
  | test
  /-- `get_value`, before the compare-exchange -/
  | allocate
  /-- before the addition, or the exchange of the first stripe -/
  | apply
  /-- the loop of `update`, before the test of a pointer -/
  | loop (i : ℕ) (val : V)
  /-- the loop of `update`, before the exchange of a stripe -/
  | drain (i : ℕ) (val : V)

/-- A call in progress, with the stripe of its thread. -/
structure Running (V : Type) where
  op : Operation V
  index : ℕ
  phase : Phase V

/-- `thread_local_value`, the calls in progress, and those that have returned with what they have
returned. The functions `inc` and `dec` return nothing, which is zero here. -/
structure ThreadLocalValue (V : Type) where
  /-- `duplicates_`, with `none` for a null pointer -/
  duplicates : List (Option V)
  running : List (Running V)
  returned : List (Operation V × V)

/-- `value`, of the stripes. -/
def value (duplicates : List (Option V)) : V :=
  duplicates.foldl (fun val t => match t with | some x => val + x | none => val) 0

namespace ThreadLocalValue

/-- A call goes on. -/
def advance (s : ThreadLocalValue V) (k : ℕ) (r : Running V) : ThreadLocalValue V :=
  { s with running := s.running.set k r }

/-- A call returns. -/
def finish (s : ThreadLocalValue V) (k : ℕ) (op : Operation V) (result : V) : ThreadLocalValue V :=
  { s with running := s.running.eraseIdx k, returned := (op, result) :: s.returned }

def setStripe (s : ThreadLocalValue V) (i : ℕ) (x : V) : ThreadLocalValue V :=
  { s with duplicates := s.duplicates.set i (some x) }

/-- A thread with `index` begins a call: `get_round_index` for `inc` and `dec`, the first stripe for
`update`. -/
def start (s : ThreadLocalValue V) (op : Operation V) (index : ℕ) : ThreadLocalValue V :=
  let stripe := match op with
    | .update _ => 0
    | _ => index % s.duplicates.length
  { s with running := s.running ++ [⟨op, stripe, .test⟩] }

/-- The access to the stripe of a call: `inc_impl`, `dec_impl`, or the exchange of `update`. -/
def applyTo (s : ThreadLocalValue V) (k : ℕ) (r : Running V) (x : V) : ThreadLocalValue V :=
  match r.op with
  | .inc value => (s.setStripe r.index (x + value)).finish k r.op 0
  | .dec value => (s.setStripe r.index (x - value)).finish k r.op 0
  | .update value => (s.setStripe r.index value).advance k { r with phase := .loop 1 x }

/-- A step of a call: `none` where it would be an access behind the stripes or to a null pointer. -/
def step (s : ThreadLocalValue V) (k : ℕ) (r : Running V) : Option (ThreadLocalValue V) :=
  match r.phase with
  | .test =>
    match s.duplicates[r.index]? with
    | none => none
    | some none => some (s.advance k { r with phase := .allocate })
    | some (some _) => some (s.advance k { r with phase := .apply })
  | .allocate =>
    match s.duplicates[r.index]? with
    | none => none
    | some none => some ((s.setStripe r.index 0).advance k { r with phase := .apply })
    | some (some _) => some (s.advance k { r with phase := .apply })
  | .apply =>
    match s.duplicates[r.index]? with
    | some (some x) => some (s.applyTo k r x)
    | _ => none
  | .loop i val =>
    match s.duplicates[i]? with
    | none => some (s.finish k r.op val)
    | some none => some (s.advance k { r with phase := .loop (i + 1) val })
    | some (some _) => some (s.advance k { r with phase := .drain i val })
  | .drain i val =>
    match s.duplicates[i]? with
    | some (some x) =>
      some ((s.setStripe i 0).advance k { r with phase := .loop (i + 1) (val + x) })
    | _ => none

end ThreadLocalValue

open ThreadLocalValue

/-- What happens next: a thread begins a call, or one of the calls takes a step. -/
inductive Turn (V : Type)
  | start (op : Operation V) (index : ℕ)
  | step (k : ℕ)

/-- The turns of the threads, on a value with so many stripes. -/
def threads (V : Type) [AddCommGroup V] (dupliCount : ℕ) :
    TransitionSystem (ThreadLocalValue V) (Turn V) where
  init := ⟨List.replicate dupliCount none, [], []⟩
  step s
    | .start op index => some (s.start op index)
    | .step k => s.running[k]?.bind fun r => s.step k r

/-! ### The value -/

section Value

variable {duplicates : List (Option V)} {i : ℕ} {t : Option V} {x y : V}

theorem value_eq_sum (duplicates : List (Option V)) :
    value duplicates = (duplicates.map fun t => t.getD 0).sum := by
  have hfold : ∀ (ts : List (Option V)) (val : V),
      ts.foldl (fun val t => match t with | some x => val + x | none => val) val =
        val + (ts.map fun t => t.getD 0).sum := by
    intro ts
    induction ts with
    | nil => exact fun val => (add_zero val).symm
    | cons t ts ih =>
      intro val
      rw [List.foldl_cons, ih, List.map_cons, List.sum_cons]
      cases t with
      | none => rw [Option.getD_none, zero_add]
      | some x => rw [Option.getD_some, add_assoc]
  rw [value, hfold, zero_add]

@[simp] theorem value_nil : value ([] : List (Option V)) = 0 := rfl

@[simp] theorem value_cons (t : Option V) (ts : List (Option V)) :
    value (t :: ts) = t.getD 0 + value ts := by
  rw [value_eq_sum, List.map_cons, List.sum_cons, value_eq_sum]

theorem value_replicate (n : ℕ) : value (List.replicate n (none : Option V)) = 0 := by
  induction n with
  | zero => rfl
  | succ n ih => rw [List.replicate_succ, value_cons, ih, Option.getD_none, zero_add]

theorem sum_map_set {α : Type} {l : List α} {k : ℕ} {a : α} (h : l[k]? = some a) (b : α)
    (f : α → V) : ((l.set k b).map f).sum = (l.map f).sum - f a + f b := by
  obtain ⟨hk, rfl⟩ := List.getElem?_eq_some_iff.mp h
  rw [List.map_set, List.sum_set', dif_pos (by simpa using hk), List.getElem_map]
  abel

theorem sum_map_eraseIdx {α : Type} {l : List α} {k : ℕ} {a : α} (h : l[k]? = some a) (f : α → V) :
    ((l.eraseIdx k).map f).sum = (l.map f).sum - f a := by
  obtain ⟨hk, rfl⟩ := List.getElem?_eq_some_iff.mp h
  have hperm := (List.getElem_cons_eraseIdx_perm hk).map f
  rw [← hperm.sum_eq, List.map_cons, List.sum_cons]
  abel

theorem value_set (h : duplicates[i]? = some t) (y : V) :
    value (duplicates.set i (some y)) = value duplicates - t.getD 0 + y := by
  rw [value_eq_sum, value_eq_sum, sum_map_set h, Option.getD_some]

end Value

/-! ### Conservation -/

/-- What a call that is in progress has changed so far. -/
def Running.change (r : Running V) : V :=
  match r.phase with
  | .test | .allocate | .apply => 0
  | .loop _ val | .drain _ val => r.op.amount - val

/-- What a call that has returned has changed. -/
def change (call : Operation V × V) : V := call.1.amount - call.2

section Steps

variable {n : ℕ} {s s' : ThreadLocalValue V} {k : ℕ} {r : Running V} {x : V}

/-- A step of a call changes the value by what the call changes in this step: either the call goes
on, or it returns. -/
def Effect (s s' : ThreadLocalValue V) (k : ℕ) (r : Running V) : Prop :=
  (∃ r', s'.running = s.running.set k r' ∧ s'.returned = s.returned ∧
      value s'.duplicates = value s.duplicates - r.change + r'.change) ∨
    ∃ call, s'.running = s.running.eraseIdx k ∧ s'.returned = call :: s.returned ∧
      value s'.duplicates = value s.duplicates - r.change + change call

theorem effect_applyTo (hphase : r.phase = .apply) (hx : s.duplicates[r.index]? = some (some x)) :
    Effect s (s.applyTo k r x) k r := by
  have hzero : r.change = 0 := by rw [Running.change, hphase]
  rw [applyTo, Effect, hzero, sub_zero]
  cases hop : r.op with
  | inc v =>
    refine .inr ⟨(.inc v, 0), rfl, rfl, ?_⟩
    change value (s.duplicates.set r.index _) = value s.duplicates + (v - 0)
    rw [value_set hx, Option.getD_some]
    abel
  | dec v =>
    refine .inr ⟨(.dec v, 0), rfl, rfl, ?_⟩
    change value (s.duplicates.set r.index _) = value s.duplicates + (-v - 0)
    rw [value_set hx, Option.getD_some]
    abel
  | update v =>
    refine .inl ⟨_, rfl, rfl, ?_⟩
    change value (s.duplicates.set r.index _) = value s.duplicates + (v - x)
    rw [value_set hx, Option.getD_some]
    abel

/-- A call that goes on, where neither the value nor what the call has changed is another. -/
theorem effect_advance {r' : Running V} {duplicates : List (Option V)}
    (hvalue : value duplicates = value s.duplicates) (hchange : r'.change = r.change) :
    Effect s ({ s with duplicates := duplicates }.advance k r') k r := by
  refine .inl ⟨r', rfl, rfl, ?_⟩
  rw [hchange, sub_add_cancel]
  exact hvalue

theorem effect_of_step (h : s.step k r = some s') : Effect s s' k r := by
  cases hphase : r.phase with
  | test =>
    simp only [ThreadLocalValue.step, hphase] at h
    have hzero : r.change = 0 := by rw [Running.change, hphase]
    split at h
    · cases h
    · cases h
      exact effect_advance rfl (hzero ▸ rfl)
    · cases h
      exact effect_advance rfl (hzero ▸ rfl)
  | allocate =>
    simp only [ThreadLocalValue.step, hphase] at h
    have hzero : r.change = 0 := by rw [Running.change, hphase]
    split at h
    · cases h
    · rename_i hnull
      cases h
      refine effect_advance ?_ (hzero ▸ rfl)
      rw [value_set hnull, Option.getD_none, sub_zero, add_zero]
    · cases h
      exact effect_advance rfl (hzero ▸ rfl)
  | apply =>
    simp only [ThreadLocalValue.step, hphase] at h
    split at h
    · rename_i x hx
      cases h
      exact effect_applyTo hphase hx
    · cases h
  | loop i val =>
    simp only [ThreadLocalValue.step, hphase] at h
    have hchange : r.change = r.op.amount - val := by rw [Running.change, hphase]
    split at h
    · cases h
      refine .inr ⟨(r.op, val), rfl, rfl, ?_⟩
      change value s.duplicates = value s.duplicates - r.change + (r.op.amount - val)
      rw [hchange, sub_add_cancel]
    · cases h
      exact effect_advance rfl hchange.symm
    · cases h
      exact effect_advance rfl hchange.symm
  | drain i val =>
    simp only [ThreadLocalValue.step, hphase] at h
    have hchange : r.change = r.op.amount - val := by rw [Running.change, hphase]
    split at h
    · rename_i x hx
      cases h
      refine .inl ⟨_, rfl, rfl, ?_⟩
      change value (s.duplicates.set i (some 0)) =
        value s.duplicates - r.change + (r.op.amount - (val + x))
      rw [value_set hx, hchange, Option.getD_some]
      abel
    · cases h

/-- The stripes hold what the calls have changed, those that have returned and those that have
not. -/
def ThreadLocalValue.Conserves (s : ThreadLocalValue V) : Prop :=
  value s.duplicates = (s.returned.map change).sum + (s.running.map Running.change).sum

theorem Effect.conserves (h : Effect s s' k r) (hr : s.running[k]? = some r) (hs : s.Conserves) :
    s'.Conserves := by
  rw [Conserves] at hs ⊢
  obtain ⟨r', hrunning, hreturned, hvalue⟩ | ⟨call, hrunning, hreturned, hvalue⟩ := h
  · rw [hvalue, hs, hrunning, hreturned, sum_map_set hr]
    abel
  · rw [hvalue, hs, hrunning, hreturned, sum_map_eraseIdx hr, List.map_cons, List.sum_cons]
    abel

/-- No increment is lost or counted twice, in any order of the accesses. -/
theorem conserves_of_reachable (h : (threads V n).Reachable s) : s.Conserves := by
  apply h.invariant
  · exact (value_replicate (V := V) n).trans (add_zero 0).symm
  · intro s turn s' hs _ hturn
    cases turn with
    | start op index =>
      cases hturn
      rw [Conserves] at hs ⊢
      change value s.duplicates = _ + ((s.running ++ [_]).map Running.change).sum
      have hnew : ∀ j, (⟨op, j, .test⟩ : Running V).change = 0 := fun _ => rfl
      rw [hs, List.map_append, List.sum_append, List.map_singleton, List.sum_singleton,
        hnew, add_zero]
      rfl
    | step k =>
      obtain ⟨r, hr, hstep⟩ := Option.bind_eq_some_iff.mp hturn
      exact (effect_of_step hstep).conserves hr hs

/-! ### A call always has a step -/

/-- There is a stripe at `i`, and its pointer is set. -/
def Allocated (duplicates : List (Option V)) (i : ℕ) : Prop :=
  ∃ x, duplicates[i]? = some (some x)

/-- A call that is before an access to a stripe does not find a null pointer. -/
def PhaseOk (duplicates : List (Option V)) (index : ℕ) : Phase V → Prop
  | .apply => Allocated duplicates index
  | .drain i _ => Allocated duplicates i
  | _ => True

/-- The number of the stripes, and what the calls find. -/
structure ThreadLocalValue.Valid (n : ℕ) (s : ThreadLocalValue V) : Prop where
  length : s.duplicates.length = n
  running : ∀ r ∈ s.running, r.index < n ∧ PhaseOk s.duplicates r.index r.phase

omit [AddCommGroup V] in
/-- A pointer that is set stays so. -/
theorem Allocated.set {duplicates : List (Option V)} {i : ℕ} (h : Allocated duplicates i) (j : ℕ)
    (y : V) : Allocated (duplicates.set j (some y)) i := by
  obtain ⟨x, hx⟩ := h
  by_cases hij : j = i
  · rw [hij]
    exact ⟨y, List.getElem?_set_self (List.getElem?_eq_some_iff.mp hx).1⟩
  · exact ⟨x, by rw [List.getElem?_set_ne hij, hx]⟩

omit [AddCommGroup V] in
theorem allocated_set {duplicates : List (Option V)} {i : ℕ} (h : i < duplicates.length) (y : V) :
    Allocated (duplicates.set i (some y)) i :=
  ⟨y, List.getElem?_set_self h⟩

omit [AddCommGroup V] in
theorem PhaseOk.set {duplicates : List (Option V)} {index : ℕ} {phase : Phase V}
    (h : PhaseOk duplicates index phase) (j : ℕ) (y : V) :
    PhaseOk (duplicates.set j (some y)) index phase := by
  cases phase with
  | apply => exact Allocated.set h j y
  | drain i val => exact Allocated.set h j y
  | test => trivial
  | allocate => trivial
  | loop i val => trivial

omit [AddCommGroup V] in
theorem ThreadLocalValue.Valid.setStripe (hs : s.Valid n) (i : ℕ) (y : V) :
    (s.setStripe i y).Valid n where
  length := by rw [← hs.length]; exact List.length_set
  running := fun r hr => ⟨(hs.running r hr).1, (hs.running r hr).2.set i y⟩

omit [AddCommGroup V] in
theorem ThreadLocalValue.Valid.advance (hs : s.Valid n) {r' : Running V} (hindex : r'.index < n)
    (hphase : PhaseOk s.duplicates r'.index r'.phase) : (s.advance k r').Valid n where
  length := hs.length
  running := fun q hq => by
    obtain hq | rfl := List.mem_or_eq_of_mem_set hq
    · exact hs.running q hq
    · exact ⟨hindex, hphase⟩

omit [AddCommGroup V] in
theorem ThreadLocalValue.Valid.finish (hs : s.Valid n) (op : Operation V) (result : V) :
    (s.finish k op result).Valid n where
  length := hs.length
  running := fun q hq => hs.running q (List.mem_of_mem_eraseIdx hq)

/-- A call has a step, and the step leaves the calls in order. -/
theorem ThreadLocalValue.Valid.exists_step (hs : s.Valid n) (hr : s.running[k]? = some r) :
    ∃ s', s.step k r = some s' ∧ s'.Valid n := by
  obtain ⟨hindex, hok⟩ := hs.running r (List.mem_of_getElem? hr)
  have hlen : r.index < s.duplicates.length := hs.length ▸ hindex
  cases hphase : r.phase with
  | test =>
    simp only [step, hphase, List.getElem?_eq_getElem hlen]
    cases hx : s.duplicates[r.index] with
    | none => exact ⟨_, rfl, hs.advance hindex trivial⟩
    | some x => exact ⟨_, rfl, hs.advance hindex ⟨x, by rw [List.getElem?_eq_getElem hlen, hx]⟩⟩
  | allocate =>
    simp only [step, hphase, List.getElem?_eq_getElem hlen]
    cases hx : s.duplicates[r.index] with
    | none => exact ⟨_, rfl, (hs.setStripe r.index 0).advance hindex (allocated_set hlen 0)⟩
    | some x => exact ⟨_, rfl, hs.advance hindex ⟨x, by rw [List.getElem?_eq_getElem hlen, hx]⟩⟩
  | apply =>
    rw [hphase] at hok
    obtain ⟨x, hx⟩ := hok
    simp only [step, hphase, hx]
    refine ⟨_, rfl, ?_⟩
    rw [applyTo]
    cases r.op with
    | inc v => exact (hs.setStripe r.index _).finish _ _
    | dec v => exact (hs.setStripe r.index _).finish _ _
    | update v => exact (hs.setStripe r.index v).advance hindex trivial
  | loop i val =>
    simp only [ThreadLocalValue.step, hphase]
    match hx : s.duplicates[i]? with
    | none => exact ⟨_, rfl, hs.finish _ _⟩
    | some none => exact ⟨_, rfl, hs.advance hindex trivial⟩
    | some (some x) => exact ⟨_, rfl, hs.advance hindex ⟨x, hx⟩⟩
  | drain i val =>
    rw [hphase] at hok
    obtain ⟨x, hx⟩ := hok
    simp only [step, hphase, hx]
    exact ⟨_, rfl, (hs.setStripe i 0).advance hindex trivial⟩

theorem valid_of_reachable (hn : 0 < n) (h : (threads V n).Reachable s) : s.Valid n := by
  apply h.invariant
  · exact ⟨List.length_replicate, fun r hr => absurd hr List.not_mem_nil⟩
  · intro s turn s' hs _ hturn
    cases turn with
    | start op index =>
      cases hturn
      refine ⟨hs.length, fun r hr => ?_⟩
      obtain hr | hr := List.mem_append.mp hr
      · exact hs.running r hr
      · rw [List.mem_singleton.mp hr]
        refine ⟨?_, trivial⟩
        rw [hs.length]
        cases op with
        | inc v => exact Nat.mod_lt index hn
        | dec v => exact Nat.mod_lt index hn
        | update v => exact hn
    | step k =>
      obtain ⟨r, hr, hstep⟩ := Option.bind_eq_some_iff.mp hturn
      obtain ⟨s'', hstep', hs''⟩ := hs.exists_step hr
      cases hstep.symm.trans hstep'
      exact hs''

/-- A call in progress always has a step: no pointer that it follows is null. -/
theorem exists_step_of_reachable (hn : 0 < n) (h : (threads V n).Reachable s)
    (hr : s.running[k]? = some r) : ∃ s', s.step k r = some s' := by
  obtain ⟨s', hstep, -⟩ := (valid_of_reachable hn h).exists_step hr
  exact ⟨s', hstep⟩

end Steps

/-! ### Copies -/

section Copies

variable {duplicates other : List (Option V)}

/-- The loop of the copy operations: a stripe of the source that is null is passed over; the value
of another one is written to the same place of the target, which may be behind its stripes. -/
def copyStripes : List (Option V) → List (Option V) → Option (List (Option V))
  | duplicates, [] => some duplicates
  | [], none :: other => copyStripes [] other
  | [], some _ :: _ => none
  | t :: duplicates, none :: other => (copyStripes duplicates other).map (t :: ·)
  | _ :: duplicates, some x :: other => (copyStripes duplicates other).map (some x :: ·)

/-- The copy constructor. -/
def copyConstruct (other : List (Option V)) : Option (List (Option V)) :=
  copyStripes (List.replicate other.length none) other

/-- The copy assignment, of `other` to a value with the stripes `duplicates`. -/
def copyAssign (duplicates other : List (Option V)) : Option (List (Option V)) :=
  copyStripes duplicates other

/-- The move constructor and the move assignment: what the target has, and the source. -/
def moveAssign (other : List (Option V)) : List (Option V) × List (Option V) := (other, [])

/-- The stripes of the target that a copy leaves as they are. -/
def kept : List (Option V) → List (Option V) → List (Option V)
  | duplicates, [] => duplicates
  | [], _ :: _ => []
  | t :: duplicates, none :: other => t :: kept duplicates other
  | _ :: duplicates, some _ :: other => kept duplicates other

/-- The target has a stripe for each one of the source that is allocated. -/
def Fits (duplicates other : List (Option V)) : Prop :=
  ∀ i, Allocated other i → i < duplicates.length

omit [AddCommGroup V] in
theorem fits_cons {t u : Option V} :
    Fits (t :: duplicates) (u :: other) ↔ Fits duplicates other := by
  constructor
  · rintro h i ⟨x, hx⟩
    exact Nat.lt_of_succ_lt_succ (h (i + 1) ⟨x, hx⟩)
  · rintro h i ⟨x, hx⟩
    cases i with
    | zero => exact Nat.succ_pos _
    | succ i => exact Nat.succ_lt_succ (h i ⟨x, hx⟩)

omit [AddCommGroup V] in
theorem fits_of_le (h : other.length ≤ duplicates.length) : Fits duplicates other := by
  rintro i ⟨x, hx⟩
  exact (List.getElem?_eq_some_iff.mp hx).1.trans_le h

/-- The target gets the value of the source and keeps that of the stripes that are left as they
are. -/
theorem exists_copyStripes_eq (h : Fits duplicates other) :
    ∃ result, copyStripes duplicates other = some result ∧
      value result = value other + value (kept duplicates other) := by
  induction other generalizing duplicates with
  | nil => exact ⟨duplicates, by rw [copyStripes], by rw [kept, value_nil, zero_add]⟩
  | cons u other ih =>
    cases duplicates with
    | nil =>
      cases u with
      | none =>
        have hrest : Fits [] other := by
          rintro i ⟨x, hx⟩
          exact absurd (h (i + 1) ⟨x, hx⟩) (Nat.not_lt_zero _)
        obtain ⟨result, hresult, hvalue⟩ := ih hrest
        refine ⟨result, by rw [copyStripes, hresult], ?_⟩
        rw [hvalue, value_cons, Option.getD_none, zero_add]
        cases other <;> rfl
      | some x => exact absurd (h 0 ⟨x, rfl⟩) (Nat.not_lt_zero _)
    | cons t duplicates =>
      obtain ⟨result, hresult, hvalue⟩ := ih (fits_cons.mp h)
      cases u with
      | none =>
        refine ⟨t :: result, by rw [copyStripes, hresult]; rfl, ?_⟩
        rw [kept, value_cons, value_cons, value_cons, hvalue, Option.getD_none]
        abel
      | some x =>
        refine ⟨some x :: result, by rw [copyStripes, hresult]; rfl, ?_⟩
        rw [kept, value_cons, value_cons, hvalue, add_assoc]

omit [AddCommGroup V] in
theorem fits_of_copyStripes_eq {result : List (Option V)}
    (h : copyStripes duplicates other = some result) : Fits duplicates other := by
  induction other generalizing duplicates result with
  | nil => exact fits_of_le (Nat.zero_le _)
  | cons u other ih =>
    cases duplicates with
    | nil =>
      cases u with
      | none =>
        rw [copyStripes] at h
        rintro i ⟨x, hx⟩
        cases i with
        | zero => cases hx
        | succ i => exact absurd (ih h i ⟨x, hx⟩) (Nat.not_lt_zero _)
      | some x => cases h
    | cons t duplicates =>
      rw [fits_cons]
      cases u with
      | none =>
        obtain ⟨rest, hrest, -⟩ := Option.map_eq_some_iff.mp h
        exact ih hrest
      | some x =>
        obtain ⟨rest, hrest, -⟩ := Option.map_eq_some_iff.mp h
        exact ih hrest

theorem value_kept_replicate (n : ℕ) (other : List (Option V)) :
    value (kept (List.replicate n none) other) = 0 := by
  induction other generalizing n with
  | nil => rw [kept, value_replicate]
  | cons u other ih =>
    cases n with
    | zero => rfl
    | succ n =>
      rw [List.replicate_succ]
      cases u with
      | none => rw [kept, value_cons, ih, Option.getD_none, zero_add]
      | some x => rw [kept, ih]

/-- A copy has the value of its source. -/
def HasValueOf (other : List (Option V)) (result : Option (List (Option V))) : Prop :=
  ∃ duplicates, result = some duplicates ∧ value duplicates = value other

theorem hasValueOf_copyConstruct (other : List (Option V)) :
    HasValueOf other (copyConstruct other) := by
  have hfits : Fits (List.replicate other.length none) other :=
    fits_of_le (List.length_replicate.symm.le)
  obtain ⟨result, hresult, hvalue⟩ := exists_copyStripes_eq hfits
  exact ⟨result, hresult, by rw [hvalue, value_kept_replicate, add_zero]⟩

theorem hasValueOf_copyAssign_iff :
    HasValueOf other (copyAssign duplicates other) ↔
      Fits duplicates other ∧ value (kept duplicates other) = 0 := by
  constructor
  · rintro ⟨result, hresult, hvalue⟩
    have hfits := fits_of_copyStripes_eq hresult
    obtain ⟨result', hresult', hvalue'⟩ := exists_copyStripes_eq hfits
    cases hresult.symm.trans hresult'
    rw [hvalue', add_eq_left] at hvalue
    exact ⟨hfits, hvalue⟩
  · rintro ⟨hfits, hkept⟩
    obtain ⟨result, hresult, hvalue⟩ := exists_copyStripes_eq hfits
    exact ⟨result, hresult, by rw [hvalue, hkept, add_zero]⟩

/-- With no call in progress the value is what the calls that have returned have added, less what
they have returned. -/
def Accounted (s : ThreadLocalValue V) : Prop :=
  value s.duplicates =
    (s.returned.map fun call => call.1.amount).sum - (s.returned.map fun call => call.2).sum

theorem accounted_of_reachable {n : ℕ} {s : ThreadLocalValue V} (h : (threads V n).Reachable s)
    (hrunning : s.running = []) : Accounted s := by
  have hsum : (s.returned.map change).sum =
      (s.returned.map fun call => call.1.amount).sum - (s.returned.map fun call => call.2).sum := by
    induction s.returned with
    | nil => exact (sub_zero 0).symm
    | cons call calls ih =>
      simp only [List.map_cons, List.sum_cons, ih, change]
      abel
  have hconserves := conserves_of_reachable h
  rw [Conserves, hrunning, hsum, List.map_nil, List.sum_nil, add_zero] at hconserves
  exact hconserves

/-- The calls of any threads in any order keep the total, and a copy has the value of its source, if
and only if the copy assignment has a stripe for each one that the source has allocated, and what
the target has in other stripes adds up to nothing. -/
theorem conserves_and_copies_iff (duplicates other : List (Option V)) :
    ((∀ n s, (threads V n).Reachable s → s.running = [] → Accounted s) ∧
        HasValueOf other (copyConstruct other) ∧ HasValueOf other (copyAssign duplicates other) ∧
        HasValueOf other (some (moveAssign other).1)) ↔
      Fits duplicates other ∧ value (kept duplicates other) = 0 := by
  rw [← hasValueOf_copyAssign_iff]
  constructor
  · exact fun h => h.2.2.1
  · intro h
    exact ⟨fun n s => accounted_of_reachable, hasValueOf_copyConstruct other, h, other, rfl, rfl⟩

end Copies

/-- One thread has added to the first stripe of the source, another one to the second stripe of the
target: the target keeps what it had. -/
theorem not_hasValueOf_copyAssign_stale :
    ((threads (BitVec 64) 2).Reachable ⟨[some 3, none], [], [(.inc 3, 0)]⟩ ∧
        (threads (BitVec 64) 2).Reachable ⟨[none, some 5], [], [(.inc 5, 0)]⟩) ∧
      ¬ HasValueOf [some (3 : BitVec 64), none] (copyAssign [none, some 5] [some 3, none]) := by
  refine ⟨⟨?_, ?_⟩, ?_⟩
  · have hrun : (threads (BitVec 64) 2).runIf (fun _ _ => True) (threads (BitVec 64) 2).init
        [.start (.inc 3) 0, .step 0, .step 0, .step 0] = some _ := rfl
    exact TransitionSystem.reaches_of_runIf .init hrun
  · have hrun : (threads (BitVec 64) 2).runIf (fun _ _ => True) (threads (BitVec 64) 2).init
        [.start (.inc 5) 1, .step 0, .step 0, .step 0] = some _ := rfl
    exact TransitionSystem.reaches_of_runIf .init hrun
  · rintro ⟨duplicates, hcopy, hvalue⟩
    cases hcopy
    revert hvalue
    decide

end Yalantinglibs.Metric
