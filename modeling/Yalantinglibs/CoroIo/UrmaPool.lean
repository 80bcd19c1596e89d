import Mathlib.Algebra.BigOperators.Group.List.Basic
import Mathlib.Tactic.Abel
import Yalantinglibs.Data.Numbering

/-!
# The pool of URMA buffers

`urma_buffer_pool_t` of `coro_io/urma/urma_buffer.hpp`. The buffers of a pool are equal parts of one
block of memory, so that the address in a `urma_buffer_t` says which it is, and a handle is its
index here. A handle can be copied: that a buffer is returned by who owns it, the pool sees only by
`in_use_`.

## Main definitions

* `BufferPool`, `getBuffer`, `returnBuffer` — the pool
* `BufferPool.Owned` — what belongs to the pool, and what others own, are all buffers together

## Main results

* `Owned.getBuffer`, `Owned.returnBuffer` — a buffer changes hands
-/

set_option autoImplicit false

namespace Yalantinglibs.CoroIo

open Yalantinglibs.Numbering

/-- `shard_count_`. -/
def shardCount : ℕ := 64

def shardForIndex (index : ℕ) : ℕ := index % shardCount

structure BufferPool where
  /-- `free_indices_`, a queue for each shard -/
  freeIndices : List (List ℕ)
  /-- `in_use_`, for each buffer -/
  inUse : List Bool
  outstandingBuffers : ℕ
  /-- how often it was warned that a buffer was returned again -/
  duplicated : ℕ

namespace BufferPool

variable (p : BufferPool)

/-- The queues of `init_buffers`, when its loop has come so far. -/
def initFreeIndices : ℕ → List (List ℕ)
  | 0 => List.replicate shardCount []
  | index + 1 => (initFreeIndices index).modify (shardForIndex index) (· ++ [index])

/-- `init_buffers`. -/
def initBuffers (bufferCount : ℕ) : BufferPool where
  freeIndices := initFreeIndices bufferCount
  inUse := List.replicate bufferCount false
  outstandingBuffers := 0
  duplicated := 0

/-- The loop of `get_buffer`, for the shards that are left. -/
def getBufferOf : List ℕ → Option (ℕ × BufferPool)
  | [] => none
  | shard :: shards =>
    match p.freeIndices[shard]? with
    | some (index :: rest) =>
      some (index, { p with
        freeIndices := p.freeIndices.set shard rest
        inUse := p.inUse.set index true
        outstandingBuffers := p.outstandingBuffers + 1 })
    | _ => getBufferOf shards

/-- `get_buffer`, of a thread that begins with a shard. -/
def getBuffer (start : ℕ) : Option (ℕ × BufferPool) :=
  p.getBufferOf ((List.range shardCount).map fun i => (start + i) % shardCount)

/-- `return_buffer`. -/
def returnBuffer (index : ℕ) : BufferPool :=
  match p.inUse[index]? with
  | some true =>
    { p with
      freeIndices := p.freeIndices.modify (shardForIndex index) (· ++ [index])
      inUse := p.inUse.set index false
      outstandingBuffers := p.outstandingBuffers - 1 }
  | some false => { p with duplicated := p.duplicated + 1 }
  -- of another pool
  | none => p

/-! ### Ownership -/

/-- The buffers that the pool has. -/
def free : Multiset ℕ := (p.freeIndices.map fun queue : List ℕ => (queue : Multiset ℕ)).sum

/-- Each of the pool's `n` buffers is free or has one owner, and none was returned twice. -/
structure Owned (n : ℕ) (owned : Multiset ℕ) : Prop where
  total : p.free + owned = Multiset.range n
  inUse : p.inUse.length = n
  shards : p.freeIndices.length = shardCount
  used : ∀ i ∈ owned, p.inUse[i]? = some true
  outstanding : p.outstandingBuffers = owned.card
  duplicated : p.duplicated = 0

variable {p} {n : ℕ} {owned : Multiset ℕ}

theorem length_initFreeIndices (n : ℕ) : (initFreeIndices n).length = shardCount := by
  induction n with
  | zero => exact List.length_replicate
  | succ n ih =>
    rw [initFreeIndices, List.length_modify]
    exact ih

/-- A buffer goes into the queue of its shard. -/
theorem sum_push {queues : List (List ℕ)} (hshards : queues.length = shardCount) (index : ℕ) :
    ((queues.modify (shardForIndex index) (· ++ [index])).map
      fun queue : List ℕ => (queue : Multiset ℕ)).sum =
        (queues.map fun queue : List ℕ => (queue : Multiset ℕ)).sum + {index} := by
  have hlt : shardForIndex index < queues.length := by
    rw [hshards]
    exact Nat.mod_lt _ (by decide)
  obtain ⟨rest, hrest, hpush⟩ := exists_sum_map (fun queue : List ℕ => (queue : Multiset ℕ))
    (List.getElem?_eq_getElem hlt)
  rw [hpush, hrest, ← Multiset.coe_add, add_right_comm]
  rfl

theorem owned_initBuffers (n : ℕ) : (initBuffers n).Owned n 0 where
  total := by
    rw [add_zero]
    change ((initFreeIndices n).map fun queue : List ℕ => (queue : Multiset ℕ)).sum =
      Multiset.range n
    induction n with
    | zero =>
      rw [initFreeIndices, List.map_replicate, List.sum_replicate]
      exact nsmul_zero _
    | succ n ih =>
      rw [initFreeIndices, sum_push (length_initFreeIndices n), ih, range_add_singleton]
  inUse := List.length_replicate
  shards := length_initFreeIndices n
  used := nofun
  outstanding := rfl
  duplicated := rfl

/-- An index is below the number of buffers, wherever it is. -/
theorem Owned.lt (hp : p.Owned n owned) {index : ℕ} (h : index ∈ p.free + owned) : index < n := by
  rw [hp.total] at h
  exact Multiset.mem_range.mp h

/-- A buffer that is free has no owner. -/
theorem Owned.nodup (hp : p.Owned n owned) : (p.free + owned).Nodup := by
  rw [hp.total]
  exact Multiset.nodup_range n

theorem Owned.getBufferOf (hp : p.Owned n owned) {shards : List ℕ} {index : ℕ} {p' : BufferPool}
    (h : p.getBufferOf shards = some (index, p')) : p'.Owned n ({index} + owned) := by
  induction shards with
  | nil => cases h
  | cons shard shards ih =>
    rw [BufferPool.getBufferOf] at h
    split at h
    · rename_i index' rest hqueue
      cases h
      obtain ⟨others, hothers, hset⟩ := exists_sum_map_set
        (fun queue : List ℕ => (queue : Multiset ℕ)) hqueue
      have hfree : ((p.freeIndices.set shard rest).map fun queue : List ℕ =>
          (queue : Multiset ℕ)).sum + {index} = p.free := by
        rw [hset, BufferPool.free, hothers, coe_cons, add_comm, add_assoc]
      have hmem : index ∈ p.free := by
        rw [← hfree]
        exact Multiset.mem_add.mpr (.inr (Multiset.mem_singleton_self index))
      have hlt := hp.lt (Multiset.mem_add.mpr (.inl hmem))
      refine ⟨?_, ?_, ?_, ?_, ?_, hp.duplicated⟩
      · rw [← hp.total, ← hfree, add_assoc]
        rfl
      · rw [List.length_set]
        exact hp.inUse
      · rw [List.length_set]
        exact hp.shards
      · intro i hi
        dsimp only
        by_cases hi' : index = i
        · rw [← hi', List.getElem?_set_self (hp.inUse.symm ▸ hlt)]
        · rw [List.getElem?_set_ne hi']
          refine hp.used i ((Multiset.mem_add.mp hi).resolve_left fun hone => ?_)
          exact hi' (Multiset.mem_singleton.mp hone).symm
      · rw [Multiset.card_add, Multiset.card_singleton, ← hp.outstanding]
        exact Nat.add_comm _ _
    · exact ih h

/-- A buffer is taken from the pool. -/
theorem Owned.getBuffer (hp : p.Owned n owned) {start index : ℕ} {p' : BufferPool}
    (h : p.getBuffer start = some (index, p')) : p'.Owned n ({index} + owned) :=
  hp.getBufferOf h

/-- The owner of a buffer gives it back. -/
theorem Owned.returnBuffer {index : ℕ} (hp : p.Owned n ({index} + owned)) :
    (p.returnBuffer index).Owned n owned := by
  have hused := hp.used index (Multiset.mem_add.mpr (.inl (Multiset.mem_singleton_self index)))
  unfold BufferPool.returnBuffer
  rw [hused]
  dsimp only
  refine ⟨?_, ?_, ?_, ?_, ?_, hp.duplicated⟩
  · change ((p.freeIndices.modify _ _).map _).sum + owned = _
    rw [sum_push hp.shards, add_assoc]
    exact hp.total
  · rw [List.length_set]
    exact hp.inUse
  · rw [List.length_modify]
    exact hp.shards
  · intro i hi
    dsimp only
    have hne : index ≠ i := by
      rintro rfl
      have hnodup := (Multiset.nodup_add.mp hp.nodup).2.1
      exact Multiset.disjoint_left.mp (Multiset.nodup_add.mp hnodup).2.2
        (Multiset.mem_singleton_self index) hi
    rw [List.getElem?_set_ne hne]
    exact hp.used i (Multiset.mem_add.mpr (.inr hi))
  · have hcard := hp.outstanding
    rw [Multiset.card_add, Multiset.card_singleton] at hcard
    change p.outstandingBuffers - 1 = owned.card
    omega

end BufferPool
end Yalantinglibs.CoroIo
