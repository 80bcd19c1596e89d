import Mathlib.Algebra.BigOperators.Group.List.Basic
import Mathlib.Algebra.GroupWithZero.Nat
import Mathlib.Data.Int.Notation
import Mathlib.Tactic.Common
import Yalantinglibs.Data.Numbering
import Yalantinglibs.Data.TransitionSystem

/-!
# The accounts of the ibverbs buffer pools

`coro_io/ibverbs/ib_buffer.hpp` and `ib_buffer_t::regist`. Pools of registered memory share a
recorder of what they use. A buffer is added when its memory is registered, and subtracted in two
places: a buffer that is released is subtracted with its own length where the pool does not take it
back, and the collector subtracts the buffers it has dropped as so many times `buffer_size`.

The calls run side by side, from one access to what they share to the next. Which buffer a queue
hands out, and whether there is memory, is up to the environment and part of a step.

## Main definitions

* `Operation`, `Operation.step` — where a call stands, and its steps
* `bufferPools` — the system
* `Pools.Accounts` — what the recorder is to say
* `Regular` — the steps that keep the accounts

## Main results

* `inv_step` — what a regular step keeps
* `accounts_of_reaches` — the accounts are right after any number of regular steps
-/

set_option autoImplicit false

namespace Yalantinglibs.CoroIo.Ibv

open TransitionSystem

/-- `config_t`, as far as the accounts go. -/
structure PoolConfig where
  bufferSize : ℕ
  maxMemoryUsage : ℕ

/-- `ib_buffer_t` with memory: `owner_pool_` and `mr_->length`. -/
structure IbBuffer where
  pool : ℕ
  length : ℕ
deriving DecidableEq

/-- The length that `get_buffer` registers: whole pages of a GPU. -/
def registeredLength (gpu : Bool) (bufferSize : ℕ) : ℕ :=
  if gpu then (bufferSize + (64 * 1024 - 1)) % 2 ^ 64 / (64 * 1024) * (64 * 1024) else bufferSize

/-- What comes behind `modify_memory_usage`. -/
inductive After
  /-- `get_buffer` returns the buffer -/
  | hold (b : IbBuffer)
  /-- the memory of a released buffer is deregistered -/
  | drop (b : IbBuffer)
  /-- the round of the collector is over -/
  | collected
deriving DecidableEq

/-- Where a call stands: each phase but the last ends with an access to what is shared. -/
inductive Operation
  /-- `get_buffer` before `try_dequeue` -/
  | dequeue (i : ℕ) (gpu : Bool)
  /-- `get_buffer` before `memory_out_of_limit` -/
  | test (i : ℕ) (gpu : Bool)
  /-- before `ibv_reg_mr`; the last value is the usage that the test has read -/
  | regist (i : ℕ) (gpu : Bool) (seen : ℕ)
  /-- the memory is registered, but not added -/
  | add (i : ℕ) (length seen : ℕ)
  /-- `release_resource` before `owner_pool_.lock` -/
  | release (b : IbBuffer)
  /-- `collect_free` before `memory_out_of_limit` -/
  | collectFree (b : IbBuffer)
  | enqueue (b : IbBuffer)
  /-- `release_resource` before `modify_memory_usage` -/
  | subtract (b : IbBuffer)
  /-- in `clear_old`, with the lengths of what has been dropped -/
  | clear (i : ℕ) (cleared : List ℕ)
  /-- in `modify_memory_usage`, before `history_max_usage` is read -/
  | record (i value : ℕ) (after : After)
  /-- before the compare-exchange of `history_max_usage` -/
  | exchange (i value old : ℕ) (after : After)
  | returned
deriving DecidableEq

/-- What a step finds. -/
inductive PoolFinding
  | none
  /-- the queue hands out a buffer of this length -/
  | buffer (length : ℕ)
  /-- there is or is not memory -/
  | memory (ok : Bool)
deriving DecidableEq

/-- The pools that share a recorder, with a record of the largest usage, and of whether `get_buffer`
has pushed the usage above the limit. -/
structure Pools where
  /-- the number of pools that have been created -/
  made : ℕ
  alive : List ℕ
  nowUsage : ℕ
  historyMaxUsage : ℕ
  /-- `free_buffers_` of all pools -/
  free : List IbBuffer
  held : List IbBuffer
  operations : List Operation
  peak : ℕ
  overLimit : Bool
deriving DecidableEq

/-- The pool that a call keeps alive. -/
def Operation.pool? : Operation → Option ℕ
  | .dequeue i _ | .test i _ | .regist i _ _ | .add i _ _ | .clear i _ | .record i _ _
  | .exchange i _ _ _ => some i
  | .collectFree b | .enqueue b | .subtract b => some b.pool
  | .release _ | .returned => none

/-- The pool of a buffer whose release has not asked for the pool yet. -/
def Operation.releasing? : Operation → Option ℕ
  | .release b => some b.pool
  | _ => none

/-- The memory of the buffer that a call deals with. -/
def Operation.registered : Operation → ℕ
  | .add _ length _ => length
  | .release b | .collectFree b | .enqueue b | .subtract b => b.length
  | .record _ _ (.hold b) | .exchange _ _ _ (.hold b) => b.length
  | .record _ _ (.drop b) | .exchange _ _ _ (.drop b) => b.length
  | _ => 0

/-- What the recorder counts on account of a call. -/
def Operation.counted : Operation → ℕ
  | .release b | .collectFree b | .enqueue b | .subtract b => b.length
  | .record _ _ (.hold b) | .exchange _ _ _ (.hold b) => b.length
  | .clear _ cleared => cleared.sum
  | _ => 0

/-- The largest usage that a call is about to record. -/
def Operation.toRecord : Operation → Option ℕ
  | .record _ value _ | .exchange _ value _ _ => some value
  | _ => none

namespace Pools

/-- The registered memory of all living buffers. -/
def living (s : Pools) : ℕ :=
  (s.free.map IbBuffer.length).sum + (s.held.map IbBuffer.length).sum +
    (s.operations.map Operation.registered).sum

/-- `now_usage.fetch_add(count)`. -/
def fetchAdd (s : Pools) (count : ℤ) : Pools :=
  let value := ((s.nowUsage + count) % 2 ^ 64).toNat
  { s with nowUsage := value, peak := max s.peak value }

/-- `memory_out_of_limit`. -/
def memoryOutOfLimit (s : Pools) (config : PoolConfig) : Bool :=
  config.maxMemoryUsage < (config.bufferSize + s.nowUsage) % 2 ^ 64

/-- The end of a call behind `modify_memory_usage`. -/
def finish (s : Pools) : After → Pools
  | .hold b => { s with held := s.held ++ [b] }
  | .drop _ | .collected => s

end Pools

/-- A step of a call. -/
def Operation.step (config : ℕ → PoolConfig) (s : Pools) :
    Operation → PoolFinding → Option (Operation × Pools)
  | .dequeue i _, .buffer length =>
    if ⟨i, length⟩ ∈ s.free then
      some (.returned,
        { s with free := s.free.erase ⟨i, length⟩, held := s.held ++ [⟨i, length⟩] })
    else none
  | .dequeue i gpu, .none => some (.test i gpu, s)
  | .test i gpu, .none =>
    some (if s.memoryOutOfLimit (config i) then .returned else .regist i gpu s.nowUsage, s)
  | .regist i gpu seen, .memory ok =>
    let length := registeredLength gpu (config i).bufferSize
    if ok then
      -- all registered memory lies in one address space
      if s.living + length < 2 ^ 64 then some (.add i length seen, s) else none
    else some (.returned, s)
  | .add i length _, .none =>
    let s := s.fetchAdd length
    some (.record i s.nowUsage (.hold ⟨i, length⟩),
      { s with overLimit := s.overLimit || (config i).maxMemoryUsage < s.nowUsage })
  | .release b, .none => some (if b.pool ∈ s.alive then .collectFree b else .returned, s)
  | .collectFree b, .none =>
    some (if s.memoryOutOfLimit (config b.pool) then .subtract b else .enqueue b, s)
  | .enqueue b, .memory ok =>
    -- a buffer that finds no place is destroyed on the way
    some (.returned, if ok then { s with free := s.free ++ [b] } else s)
  | .subtract b, .none =>
    let s := s.fetchAdd (-b.length)
    some (.record b.pool s.nowUsage (.drop b), s)
  | .clear i cleared, .buffer length =>
    if cleared.length < 1000 ∧ ⟨i, length⟩ ∈ s.free then
      some (.clear i (cleared ++ [length]), { s with free := s.free.erase ⟨i, length⟩ })
    else none
  | .clear i cleared, .none =>
    let s := s.fetchAdd (-(cleared.length * (config i).bufferSize))
    some (.record i s.nowUsage .collected, s)
  | .record i value after, .none => some (.exchange i value s.historyMaxUsage after, s)
  | .exchange i value old after, .none =>
    if value > old then
      if s.historyMaxUsage = old then
        some (.returned, { s with historyMaxUsage := value }.finish after)
      else some (.exchange i value s.historyMaxUsage after, s)
    else some (.returned, s.finish after)
  | _, _ => none

/-- What happens next. -/
inductive PoolAction
  | create
  /-- the last one to hold a pool lets it go -/
  | destroy (i : ℕ)
  | getBuffer (i : ℕ) (gpu : Bool)
  /-- a held buffer is destroyed, or another one is assigned to it -/
  | release (b : IbBuffer)
  /-- a round of the collector begins, on the queue that `reselect` has left -/
  | collect (i : ℕ)
  | turn (k : ℕ) (finding : PoolFinding)
deriving DecidableEq

/-- The steps of the pools. -/
def Pools.step (config : ℕ → PoolConfig) (s : Pools) : PoolAction → Option Pools
  | .create => some { s with made := s.made + 1, alive := s.alive ++ [s.made] }
  | .destroy i =>
    if i ∈ s.alive ∧ ∀ op ∈ s.operations, op.pool? ≠ some i then
      some { s with alive := s.alive.filter (· ≠ i), free := s.free.filter (·.pool ≠ i) }
    else none
  | .getBuffer i gpu =>
    if i ∈ s.alive then some { s with operations := s.operations ++ [.dequeue i gpu] } else none
  | .release b =>
    if b ∈ s.held then
      some { s with held := s.held.erase b, operations := s.operations ++ [.release b] }
    else none
  | .collect i =>
    if i ∈ s.alive then some { s with operations := s.operations ++ [.clear i []] } else none
  | .turn k finding =>
    s.operations[k]?.bind fun op => (op.step config s finding).map fun next =>
      { next.2 with operations := s.operations.set k next.1 }

/-- Pools with these configurations, one after the other. -/
def bufferPools (config : ℕ → PoolConfig) : TransitionSystem Pools PoolAction where
  init := ⟨0, [], 0, 0, [], [], [], 0, false⟩
  step := Pools.step config

/-- What the recorder is to say. No call is to stand between a change of the memory and its record:
the usage is the memory of the living buffers where each call has its buffer counted, and the
largest usage is in the history where no call is about to record one. -/
structure Pools.Accounts (s : Pools) : Prop where
  nowUsage : (∀ op ∈ s.operations, op.counted = op.registered) → s.nowUsage = s.living
  overLimit : s.overLimit = false
  history : (∀ op ∈ s.operations, op.toRecord = none) → s.peak ≤ s.historyMaxUsage

/-- The steps of a call that keep the accounts. What the collector drops has the configured size,
and what is put back finds its place; no usage is so large that the test of the limit wraps around,
and a buffer that is added has the configured size, with no more usage than the test has read. -/
def RegularTurn (config : ℕ → PoolConfig) (s : Pools) : Operation → PoolFinding → Prop
  | .clear i _, .buffer length => length = (config i).bufferSize
  | .enqueue _, .memory ok => ok = true
  | .test i _, .none => (config i).bufferSize + s.nowUsage < 2 ^ 64
  | .add i length seen, .none => length = (config i).bufferSize ∧ s.nowUsage ≤ seen
  | _, _ => True

/-- The steps that keep the accounts: a pool is destroyed when all its buffers are gone. -/
def Regular (config : ℕ → PoolConfig) (s : Pools) : PoolAction → Prop
  | .destroy i =>
    (∀ b ∈ s.free, b.pool ≠ i) ∧ (∀ b ∈ s.held, b.pool ≠ i) ∧
      ∀ op ∈ s.operations, op.releasing? ≠ some i
  | .turn k finding => ∀ op ∈ s.operations[k]?, RegularTurn config s op finding
  | _ => True

instance (config : ℕ → PoolConfig) (s : Pools) (op : Operation) (finding : PoolFinding) :
    Decidable (RegularTurn config s op finding) := by
  cases op <;> cases finding <;> dsimp only [RegularTurn] <;> infer_instance

instance (config : ℕ → PoolConfig) (s : Pools) (a : PoolAction) :
    Decidable (Regular config s a) := by
  cases a <;> dsimp only [Regular] <;> infer_instance

/-! ### What a call may rely on -/

/-- The buffer that is handed out is of this pool. -/
def After.In (i : ℕ) : After → Prop
  | .hold b => b.pool = i
  | .drop _ | .collected => True

/-- What holds while a call stands there: its pool exists, its test of the limit has been passed,
and what it knows of the history has been there. -/
def Operation.Good (config : ℕ → PoolConfig) (alive : List ℕ) (history : ℕ) : Operation → Prop
  | .dequeue i _ | .test i _ => i ∈ alive
  | .regist i _ seen | .add i _ seen =>
    i ∈ alive ∧ (config i).bufferSize + seen ≤ (config i).maxMemoryUsage
  | .release b | .collectFree b | .enqueue b | .subtract b => b.pool ∈ alive
  | .clear i cleared => i ∈ alive ∧ cleared.sum = cleared.length * (config i).bufferSize
  | .record i _ after => i ∈ alive ∧ after.In i
  | .exchange i _ old after => i ∈ alive ∧ after.In i ∧ old ≤ history
  | .returned => True

theorem Operation.Good.mono {config : ℕ → PoolConfig} {alive alive' : List ℕ} {history history' : ℕ}
    {op : Operation} (h : op.Good config alive history)
    (halive : ∀ i, op.pool? = some i ∨ op.releasing? = some i → i ∈ alive → i ∈ alive')
    (hhistory : history ≤ history') : op.Good config alive' history' := by
  cases op with
  | dequeue i gpu => exact halive i (.inl rfl) h
  | test i gpu => exact halive i (.inl rfl) h
  | regist i gpu seen => exact ⟨halive i (.inl rfl) h.1, h.2⟩
  | add i length seen => exact ⟨halive i (.inl rfl) h.1, h.2⟩
  | release b => exact halive b.pool (.inr rfl) h
  | collectFree b => exact halive b.pool (.inl rfl) h
  | enqueue b => exact halive b.pool (.inl rfl) h
  | subtract b => exact halive b.pool (.inl rfl) h
  | clear i cleared => exact ⟨halive i (.inl rfl) h.1, h.2⟩
  | record i value after => exact ⟨halive i (.inl rfl) h.1, h.2⟩
  | exchange i value old after => exact ⟨halive i (.inl rfl) h.1, h.2.1, h.2.2.trans hhistory⟩
  | returned => trivial

namespace Pools

/-- The memory of the buffers that no call deals with. -/
def store (s : Pools) : ℕ := (s.free.map IbBuffer.length).sum + (s.held.map IbBuffer.length).sum

/-- What the recorder is to count. -/
def counted (s : Pools) : ℕ := s.store + (s.operations.map Operation.counted).sum

end Pools

section Turns

variable {config : ℕ → PoolConfig} {s s' : Pools} {op op' : Operation} {finding : PoolFinding}

/-- An addition to a usage that stands for `total`. -/
theorem toNat_add {now total : ℕ} (h : now = total % 2 ^ 64) (n : ℕ) :
    (((now : ℤ) + n) % 2 ^ 64).toNat = (total + n) % 2 ^ 64 := by
  omega

/-- A subtraction from a usage that stands for `total`. -/
theorem toNat_sub {now total n : ℕ} (h : now = (total + n) % 2 ^ 64) :
    (((now : ℤ) + -n) % 2 ^ 64).toNat = total % 2 ^ 64 := by
  omega

/-- What a step of a call does. -/
structure Turns (config : ℕ → PoolConfig) (s s' : Pools) (op op' : Operation) : Prop where
  operations : s'.operations = s.operations
  alive : s'.alive = s.alive
  counted : ∀ rest, s.nowUsage = (s.store + op.counted + rest) % 2 ^ 64 →
    s'.nowUsage = (s'.store + op'.counted + rest) % 2 ^ 64
  living : ∀ rest, s.living = s.store + op.registered + rest → s.living < 2 ^ 64 →
    s'.store + op'.registered + rest < 2 ^ 64
  overLimit : s'.overLimit = s.overLimit
  held : ∀ b ∈ s'.held, b ∈ s.held ∨ b.pool ∈ s.alive
  good : op'.Good config s.alive s'.historyMaxUsage
  history : s.historyMaxUsage ≤ s'.historyMaxUsage
  peak : (s'.peak = s.peak ∧
      ∀ v, op.toRecord = some v → op'.toRecord = some v ∨ v ≤ s'.historyMaxUsage) ∨
    ∃ v, op'.toRecord = some v ∧ op.toRecord = none ∧ s'.peak = max s.peak v

theorem forall_of_none {P : ℕ → Prop} {o : Option ℕ} (h : o = none) : ∀ v, o = some v → P v := by
  intro v hv
  rw [h] at hv
  cases hv

/-- A step that changes nothing but where the call stands. -/
theorem Turns.of_stay (hcounted : op'.counted = op.counted)
    (hregistered : op'.registered ≤ op.registered)
    (hgood : op'.Good config s.alive s.historyMaxUsage)
    (hrecord : ∀ v, op.toRecord = some v → op'.toRecord = some v ∨ v ≤ s.historyMaxUsage) :
    Turns config s s op op' where
  operations := rfl
  alive := rfl
  counted rest h := by rw [hcounted]; exact h
  living rest h hlt := by omega
  overLimit := rfl
  held _ hb := .inl hb
  good := hgood
  history := le_rfl
  peak := .inl ⟨rfl, hrecord⟩

/-- A step that adds to the usage or subtracts from it, before the usage is recorded. -/
theorem Turns.of_fetchAdd {count : ℤ} {b : Bool} {i : ℕ} {after : After}
    (hcounted : ∀ rest, s.nowUsage = (s.store + op.counted + rest) % 2 ^ 64 →
      (s.fetchAdd count).nowUsage =
        (s.store + (Operation.record i (s.fetchAdd count).nowUsage after).counted + rest) % 2 ^ 64)
    (hregistered : (Operation.record i (s.fetchAdd count).nowUsage after).registered ≤ op.registered)
    (hover : b = s.overLimit) (halive : i ∈ s.alive) (hafter : after.In i)
    (hrecord : op.toRecord = none) :
    Turns config s { s.fetchAdd count with overLimit := b } op
      (.record i (s.fetchAdd count).nowUsage after) where
  operations := rfl
  alive := rfl
  counted := hcounted
  living rest h hlt := by
    change s.store + _ + rest < _
    omega
  overLimit := hover
  held _ hb := .inl hb
  good := ⟨halive, hafter⟩
  history := le_rfl
  peak := .inr ⟨_, rfl, hrecord, rfl⟩

/-- The end of a call behind `modify_memory_usage`. -/
theorem Turns.of_finish {i value old : ℕ} {after : After} (history : ℕ) (halive : i ∈ s.alive)
    (hafter : after.In i) (hhistory : s.historyMaxUsage ≤ history) (hvalue : value ≤ history) :
    Turns config s ({ s with historyMaxUsage := history }.finish after) (.exchange i value old after)
      .returned := by
  cases after with
  | hold b =>
    have hstore : ({ s with historyMaxUsage := history }.finish (.hold b)).store =
        s.store + b.length := by
      simp only [Pools.store, Pools.finish, List.map_append, List.map_cons, List.map_nil,
        List.sum_append, List.sum_cons, List.sum_nil]
      omega
    refine ⟨rfl, rfl, fun rest h => ?_, fun rest h hlt => ?_, rfl, fun c hc => ?_,
      trivial, hhistory, .inl ⟨rfl, fun v hv => ?_⟩⟩
    · rw [hstore]
      exact h
    · rw [hstore]
      exact h ▸ hlt
    · obtain hc | hc := List.mem_append.mp hc
      · exact .inl hc
      · rw [List.mem_singleton.mp hc]
        exact .inr (hafter.symm ▸ halive)
    · cases hv
      exact .inr hvalue
  | drop b =>
    refine ⟨rfl, rfl, fun rest h => h, fun rest h hlt => ?_, rfl, fun c hc => .inl hc, trivial,
      hhistory, .inl ⟨rfl, fun v hv => ?_⟩⟩
    · change s.store + 0 + rest < _
      omega
    · cases hv
      exact .inr hvalue
  | collected =>
    refine ⟨rfl, rfl, fun rest h => h, fun rest h hlt => h ▸ hlt, rfl, fun c hc => .inl hc, trivial,
      hhistory, .inl ⟨rfl, fun v hv => ?_⟩⟩
    cases hv
    exact .inr hvalue

/-- A free buffer is taken out. -/
theorem store_erase {b : IbBuffer} (hb : b ∈ s.free) (held : List IbBuffer) :
    b.length + { s with free := s.free.erase b, held := held }.store =
      (s.free.map IbBuffer.length).sum + (held.map IbBuffer.length).sum := by
  have := List.sum_map_erase IbBuffer.length hb
  change b.length + (((s.free.erase b).map IbBuffer.length).sum + (held.map IbBuffer.length).sum) = _
  omega

theorem store_concat_held (b : IbBuffer) :
    ((s.held ++ [b]).map IbBuffer.length).sum = (s.held.map IbBuffer.length).sum + b.length := by
  rw [List.map_append, List.sum_append, List.map_singleton, List.sum_singleton]

/-- One case for each place where a call may stand. -/
theorem turns_of_step (hgood : op.Good config s.alive s.historyMaxUsage)
    (hregular : RegularTurn config s op finding) (h : op.step config s finding = some (op', s')) :
    Turns config s s' op op' := by
  cases op with
  | dequeue i gpu =>
    cases finding with
    | none =>
      cases h
      exact .of_stay rfl le_rfl hgood (forall_of_none rfl)
    | buffer length =>
      rw [Operation.step] at h
      split_ifs at h with hmem
      cases h
      have hstore := store_erase (s := s) hmem (s.held ++ [⟨i, length⟩])
      rw [store_concat_held, ← Nat.add_assoc] at hstore
      change length + _ = s.store + length at hstore
      refine ⟨rfl, rfl, fun rest h => ?_, fun rest h hlt => ?_, rfl, fun b hb => ?_,
        trivial, le_rfl, .inl ⟨rfl, forall_of_none rfl⟩⟩
      · rw [Nat.add_left_cancel (hstore.trans (Nat.add_comm _ _))]
        exact h
      · rw [Nat.add_left_cancel (hstore.trans (Nat.add_comm _ _))]
        exact h ▸ hlt
      · obtain hb | hb := List.mem_append.mp hb
        · exact .inl hb
        · rw [List.mem_singleton.mp hb]
          exact .inr hgood
    | memory ok => cases h
  | test i gpu =>
    cases finding with
    | none =>
      cases h
      refine .of_stay (by split <;> rfl) (by split <;> exact le_rfl) ?_ (forall_of_none rfl)
      split
      · trivial
      · rename_i hlimit
        rw [Pools.memoryOutOfLimit, Nat.mod_eq_of_lt hregular, decide_eq_true_eq, not_lt] at hlimit
        exact ⟨hgood, hlimit⟩
    | buffer length => cases h
    | memory ok => cases h
  | regist i gpu seen =>
    cases finding with
    | none => cases h
    | buffer length => cases h
    | memory ok =>
      rw [Operation.step] at h
      split_ifs at h with hok hlt
      · cases h
        refine ⟨rfl, rfl, fun rest h => h, fun rest hl _ => ?_, rfl, fun b hb => .inl hb,
          hgood, le_rfl, .inl ⟨rfl, forall_of_none rfl⟩⟩
        change s.living = s.store + 0 + rest at hl
        change s.store + registeredLength gpu (config i).bufferSize + rest < _
        omega
      · cases h
        exact .of_stay rfl le_rfl trivial (forall_of_none rfl)
  | add i length seen =>
    cases finding with
    | none =>
      cases h
      obtain ⟨hlength, hseen⟩ := hregular
      refine .of_fetchAdd (fun rest h => ?_) le_rfl ?_ hgood.1 rfl rfl
      · change _ = (s.store + length + rest) % _
        rw [Nat.add_right_comm]
        exact toNat_add h length
      · have := hgood.2
        have hle : (s.fetchAdd length).nowUsage ≤ (config i).maxMemoryUsage := by
          change (((s.nowUsage : ℤ) + length) % 2 ^ 64).toNat ≤ _
          omega
        rw [decide_eq_false (not_lt.mpr hle), Bool.or_false]
        rfl
    | buffer length => cases h
    | memory ok => cases h
  | release b =>
    cases finding with
    | none =>
      cases h
      rw [if_pos (show b.pool ∈ s.alive from hgood)]
      exact .of_stay rfl le_rfl hgood (forall_of_none rfl)
    | buffer length => cases h
    | memory ok => cases h
  | collectFree b =>
    cases finding with
    | none =>
      cases h
      refine .of_stay (by split <;> rfl) (by split <;> exact le_rfl) ?_ (forall_of_none rfl)
      split <;> exact hgood
    | buffer length => cases h
    | memory ok => cases h
  | enqueue b =>
    cases finding with
    | none => cases h
    | buffer length => cases h
    | memory ok =>
      cases h
      rw [if_pos (show ok = true from hregular)]
      have hstore : { s with free := s.free ++ [b] }.store = s.store + b.length := by
        simp only [Pools.store, List.map_append, List.map_cons, List.map_nil, List.sum_append,
          List.sum_cons, List.sum_nil]
        omega
      refine ⟨rfl, rfl, fun rest h => ?_, fun rest h hlt => ?_, rfl, fun c hc => .inl hc, trivial,
        le_rfl, .inl ⟨rfl, forall_of_none rfl⟩⟩
      · rw [hstore]
        exact h
      · rw [hstore]
        exact h ▸ hlt
  | subtract b =>
    cases finding with
    | none =>
      cases h
      refine .of_fetchAdd (fun rest h => ?_) le_rfl rfl hgood trivial rfl
      change s.nowUsage = (s.store + b.length + rest) % _ at h
      rw [Nat.add_right_comm] at h
      exact toNat_sub h
    | buffer length => cases h
    | memory ok => cases h
  | clear i cleared =>
    cases finding with
    | none =>
      cases h
      refine .of_fetchAdd (fun rest h => ?_) le_rfl rfl hgood.1 trivial rfl
      change s.nowUsage = (s.store + cleared.sum + rest) % _ at h
      rw [Nat.add_right_comm] at h
      change (((s.nowUsage : ℤ) + _) % 2 ^ 64).toNat = _
      rw [← Int.natCast_mul, ← hgood.2]
      exact toNat_sub h
    | buffer length =>
      rw [Operation.step] at h
      split_ifs at h with hmem
      cases h
      have hstore := store_erase (s := s) hmem.2 s.held
      change length + _ = s.store at hstore
      have hsum : (cleared ++ [length]).sum = cleared.sum + length := by
        rw [List.sum_append, List.sum_singleton]
      refine ⟨rfl, rfl, fun rest h => ?_, fun rest h hlt => ?_, rfl, fun c hc => .inl hc,
        ⟨hgood.1, ?_⟩, le_rfl, .inl ⟨rfl, forall_of_none rfl⟩⟩
      · change s.nowUsage = (s.store + cleared.sum + rest) % _ at h
        change s.nowUsage = (_ + (cleared ++ [length]).sum + rest) % _
        refine h.trans (congrArg (· % 2 ^ 64) ?_)
        rw [hsum]
        omega
      · change s.living = s.store + 0 + rest at h
        change _ + 0 + rest < _
        omega
      · rw [hsum, hgood.2, List.length_append, List.length_singleton, Nat.add_mul, Nat.one_mul,
          (show length = (config i).bufferSize from hregular)]
    | memory ok => cases h
  | record i value after =>
    cases finding with
    | none =>
      cases h
      refine .of_stay ?_ ?_ ⟨hgood.1, hgood.2, le_rfl⟩ fun v hv => .inl hv
      · cases after <;> rfl
      · cases after <;> exact le_rfl
    | buffer length => cases h
    | memory ok => cases h
  | exchange i value old after =>
    cases finding with
    | none =>
      rw [Operation.step] at h
      split_ifs at h with hvalue hold
      · cases h
        exact .of_finish value hgood.1 hgood.2.1 (hold ▸ hvalue.le) le_rfl
      · cases h
        refine .of_stay ?_ ?_ ⟨hgood.1, hgood.2.1, le_rfl⟩ fun v hv => .inl hv
        · cases after <;> rfl
        · cases after <;> exact le_rfl
      · cases h
        exact .of_finish s.historyMaxUsage hgood.1 hgood.2.1 le_rfl
          ((not_lt.mp hvalue).trans hgood.2.2)
    | buffer length => cases h
    | memory ok => cases h
  | returned => cases finding <;> cases h

end Turns

/-! ### The accounts -/

/-- What regular steps keep. -/
structure Inv (config : ℕ → PoolConfig) (s : Pools) : Prop where
  balanced : s.nowUsage = s.counted % 2 ^ 64
  living : s.living < 2 ^ 64
  overLimit : s.overLimit = false
  held : ∀ b ∈ s.held, b.pool ∈ s.alive
  good : ∀ op ∈ s.operations, op.Good config s.alive s.historyMaxUsage
  history : s.peak ≤ s.historyMaxUsage ∨
    ∃ op ∈ s.operations, ∃ v, op.toRecord = some v ∧ s.peak ≤ v

section Invariant

variable {config : ℕ → PoolConfig} {s s' : Pools} {op : Operation} {a : PoolAction} {k : ℕ}
  {finding : PoolFinding}

theorem inv_initial : Inv config (bufferPools config).init where
  balanced := rfl
  living := Nat.two_pow_pos 64
  overLimit := rfl
  held _ hb := absurd hb List.not_mem_nil
  good _ hop := absurd hop List.not_mem_nil
  history := .inl le_rfl

/-- A call begins, with the buffers that are left to the others. -/
theorem Inv.begin {held : List IbBuffer} (hinv : Inv config s)
    (hgood : op.Good config s.alive s.historyMaxUsage) (hheld : ∀ b ∈ held, b ∈ s.held)
    (hcounted : (held.map IbBuffer.length).sum + op.counted = (s.held.map IbBuffer.length).sum)
    (hregistered : op.registered = op.counted) :
    Inv config { s with held := held, operations := s.operations ++ [op] } := by
  have hsum (f : Operation → ℕ) :
      ((s.operations ++ [op]).map f).sum = (s.operations.map f).sum + f op := by
    rw [List.map_append, List.sum_append, List.map_singleton, List.sum_singleton]
  refine ⟨hinv.balanced.trans (congrArg (· % 2 ^ 64) ?_), hinv.living.trans_eq' ?_, hinv.overLimit,
    fun b hb => hinv.held b (hheld b hb), fun o ho => ?_, ?_⟩
  · rw [Pools.counted, Pools.counted, hsum, Pools.store, Pools.store]
    dsimp only
    omega
  · rw [Pools.living, Pools.living, hsum]
    dsimp only
    omega
  · obtain ho | ho := List.mem_append.mp ho
    · exact hinv.good o ho
    · exact List.mem_singleton.mp ho ▸ hgood
  · obtain h | ⟨o, ho, h⟩ := hinv.history
    · exact .inl h
    · exact .inr ⟨o, List.mem_append_left _ ho, h⟩

/-- A call goes on. -/
theorem Inv.turn {op' : Operation} (hinv : Inv config s) (hk : s.operations[k]? = some op)
    (h : Turns config s s' op op') :
    Inv config { s' with operations := s.operations.set k op' } := by
  obtain ⟨rest, hrest, hset⟩ := Numbering.exists_sum_map_set Operation.counted hk
  obtain ⟨rest', hrest', hset'⟩ := Numbering.exists_sum_map_set Operation.registered hk
  refine ⟨?_, ?_, h.overLimit.trans hinv.overLimit, fun b hb => ?_, fun o ho => ?_, ?_⟩
  · refine (h.counted rest ?_).trans (congrArg (· % 2 ^ 64) ?_)
    · rw [hinv.balanced, Pools.counted, hrest, Nat.add_assoc]
    · change _ = s'.store + _
      rw [hset, Nat.add_assoc]
  · have := h.living rest' (by rw [Pools.living, hrest', ← Nat.add_assoc]; rfl) hinv.living
    change s'.store + _ < _
    rw [hset']
    omega
  · change b.pool ∈ s'.alive
    rw [h.alive]
    exact (h.held b hb).elim (hinv.held b) id
  · change o.Good config s'.alive s'.historyMaxUsage
    rw [h.alive]
    obtain ho | rfl := List.mem_or_eq_of_mem_set ho
    · exact (hinv.good o ho).mono (fun i _ hi => hi) h.history
    · exact h.good
  · have hmem' : op' ∈ s.operations.set k op' := by
      obtain ⟨hlt, -⟩ := List.getElem?_eq_some_iff.mp hk
      exact List.mem_set hlt op'
    change s'.peak ≤ s'.historyMaxUsage ∨
      ∃ o ∈ s.operations.set k op', ∃ v, o.toRecord = some v ∧ s'.peak ≤ v
    obtain ⟨hpeak, hrecord⟩ | ⟨v, hv, hnone, hpeak⟩ := h.peak
    · rw [hpeak]
      obtain hle | ⟨o, ho, v, hv, hle⟩ := hinv.history
      · exact .inl (hle.trans h.history)
      · obtain ⟨j, hj⟩ := List.mem_iff_getElem?.mp ho
        by_cases hkj : k = j
        · -- the call that was to record the largest usage has gone on
          obtain rfl : op = o := Option.some.inj (hk.symm.trans (hkj ▸ hj))
          obtain hv' | hv' := hrecord v hv
          · exact .inr ⟨op', hmem', v, hv', hle⟩
          · exact .inl (hle.trans hv')
        · refine .inr ⟨o, ?_, v, hv, hle⟩
          exact List.mem_iff_getElem?.mpr ⟨j, by rw [List.getElem?_set_ne hkj, hj]⟩
    · rw [hpeak]
      obtain hle | hle := Nat.le_total s.peak v
      · exact .inr ⟨op', hmem', v, hv, by rw [Nat.max_eq_right hle]⟩
      · rw [Nat.max_eq_left hle]
        obtain hle | ⟨o, ho, w, hw, hle⟩ := hinv.history
        · exact .inl (hle.trans h.history)
        · obtain ⟨j, hj⟩ := List.mem_iff_getElem?.mp ho
          have hkj : k ≠ j := by
            rintro rfl
            obtain rfl : op = o := Option.some.inj (hk.symm.trans hj)
            rw [hnone] at hw
            cases hw
          refine .inr ⟨o, ?_, w, hw, hle⟩
          exact List.mem_iff_getElem?.mpr ⟨j, by rw [List.getElem?_set_ne hkj, hj]⟩

/-- A pool is destroyed that has no buffers any more. -/
theorem Inv.destroy {i : ℕ} (hinv : Inv config s)
    (hops : ∀ op ∈ s.operations, op.pool? ≠ some i) (hregular : Regular config s (.destroy i)) :
    Inv config { s with
      alive := s.alive.filter (· ≠ i), free := s.free.filter (·.pool ≠ i) } := by
  obtain ⟨hfree, hheld, hrelease⟩ := hregular
  have hkeep : s.free.filter (·.pool ≠ i) = s.free :=
    List.filter_eq_self.mpr fun b hb => decide_eq_true (hfree b hb)
  have hmem {j : ℕ} (hj : j ∈ s.alive) (hne : j ≠ i) : j ∈ s.alive.filter (· ≠ i) :=
    List.mem_filter.mpr ⟨hj, decide_eq_true hne⟩
  rw [hkeep]
  refine ⟨hinv.balanced, hinv.living, hinv.overLimit,
    fun b hb => hmem (hinv.held b hb) (hheld b hb), fun op hop => ?_, hinv.history⟩
  refine (hinv.good op hop).mono (fun j hj halive => hmem halive ?_) le_rfl
  rintro rfl
  exact hj.elim (hops op hop) (hrelease op hop)

/-- A regular step keeps the invariant. -/
theorem inv_step (hinv : Inv config s) (hregular : Regular config s a)
    (h : s.step config a = some s') : Inv config s' := by
  cases a with
  | create =>
    cases h
    refine ⟨hinv.balanced, hinv.living, hinv.overLimit,
      fun b hb => List.mem_append_left _ (hinv.held b hb), fun op hop => ?_, hinv.history⟩
    exact (hinv.good op hop).mono (fun i _ hi => List.mem_append_left _ hi) le_rfl
  | destroy i =>
    rw [Pools.step] at h
    split_ifs at h with hif
    cases h
    exact hinv.destroy hif.2 hregular
  | getBuffer i gpu =>
    rw [Pools.step] at h
    split_ifs at h with hif
    cases h
    exact hinv.begin hif (fun b hb => hb) rfl rfl
  | release b =>
    rw [Pools.step] at h
    split_ifs at h with hif
    cases h
    refine hinv.begin (hinv.held b hif) (fun c hc => List.mem_of_mem_erase hc) ?_ rfl
    rw [Nat.add_comm]
    exact List.sum_map_erase IbBuffer.length hif
  | collect i =>
    rw [Pools.step] at h
    split_ifs at h with hif
    cases h
    exact hinv.begin ⟨hif, by rw [List.sum_nil, List.length_nil, Nat.zero_mul]⟩ (fun b hb => hb) rfl rfl
  | turn k finding =>
    obtain ⟨op, hop, hnext⟩ := Option.bind_eq_some_iff.mp h
    obtain ⟨⟨op', s₁⟩, hstep, rfl⟩ := Option.map_eq_some_iff.mp hnext
    have hturn := turns_of_step (hinv.good op (List.mem_of_getElem? hop)) (hregular op hop) hstep
    exact hinv.turn hop hturn

/-- Where each call has its buffer counted, the memory is what is counted. -/
theorem living_eq_counted (h : ∀ op ∈ s.operations, op.counted = op.registered) :
    s.living = s.counted := by
  rw [Pools.counted, List.map_congr_left h]
  rfl

theorem Inv.accounts (hinv : Inv config s) : s.Accounts where
  nowUsage h := by
    rw [hinv.balanced, ← living_eq_counted h]
    exact Nat.mod_eq_of_lt hinv.living
  overLimit := hinv.overLimit
  history h := by
    obtain hle | ⟨op, hop, v, hv, -⟩ := hinv.history
    · exact hle
    · rw [h op hop] at hv
      cases hv

/-- The accounts are right after any number of regular steps of any calls. -/
theorem accounts_of_reaches (h : (bufferPools config).Reaches (Regular config) s) : s.Accounts :=
  (h.invariant inv_initial fun _ _ _ hinv hregular hstep => inv_step hinv hregular hstep).accounts

end Invariant

/-- Buffers of eight bytes, and no more than two of them. -/
def twoBuffers (_ : ℕ) : PoolConfig := ⟨8, 16⟩

/-- A buffer that `get_buffer` has registered and returned. -/
def oneHeld : Pools := ⟨1, [0], 8, 8, [], [⟨0, 8⟩], [.returned], 8, false⟩

theorem accounts_of_reaches_oneHeld : oneHeld.Accounts := by
  have hrun : (bufferPools twoBuffers).runIf (Regular twoBuffers) (bufferPools twoBuffers).init
      [.create, .getBuffer 0 false, .turn 0 .none, .turn 0 .none, .turn 0 (.memory true),
        .turn 0 .none, .turn 0 .none, .turn 0 .none] = some oneHeld := by
    decide +kernel
  exact accounts_of_reaches (reaches_of_runIf .init hrun)

/-- A buffer is put back, and its pool destroyed: there is no buffer left, but its memory counts. -/
def countedForever : Pools := ⟨1, [], 8, 8, [], [], [.returned, .returned], 8, false⟩

theorem not_accounts_countedForever :
    ¬ ∀ s, (bufferPools twoBuffers).Reachable s → s.Accounts := by
  intro h
  have hrun : (bufferPools twoBuffers).runIf (fun _ _ => True) (bufferPools twoBuffers).init
      [.create, .getBuffer 0 false, .turn 0 .none, .turn 0 .none, .turn 0 (.memory true),
        .turn 0 .none, .turn 0 .none, .turn 0 .none, .release ⟨0, 8⟩, .turn 1 .none, .turn 1 .none,
        .turn 1 (.memory true), .destroy 0] = some countedForever := by
    rfl
  have hsame := (h _ (reaches_of_runIf .init hrun)).nowUsage (by decide)
  cases hsame

end Yalantinglibs.CoroIo.Ibv
