import Mathlib.Algebra.BigOperators.Group.List.Basic
import Mathlib.Algebra.GroupWithZero.Nat
import Mathlib.Algebra.Order.Group.Multiset
import Mathlib.Data.Int.Notation
import Mathlib.Data.Multiset.Replicate
import Mathlib.Tactic.Common
import Yalantinglibs.Data.AtomicRegister
import Yalantinglibs.Data.Numbering
import Yalantinglibs.Data.TransitionSystem

/-!
# Atomic shared pointers

`util/atomic_shared_ptr.hpp`. An `atomic_shared_ptr` keeps its pointer and a local count in one
word. When a pointer is stored, the count of its control block is raised by `EXTERNAL_OFFSET` at
once; who loads the pointer takes one of these by raising the local count, and from time to time a
batch is moved from the local count to that of the control block.

The calls run side by side, from one access to what they share to the next. A control block has the
number of its address, and an address is used again when its block has been destroyed.

Every `shared_ptr` here has the pointer that its control block manages, so that `get_newptr` never
wraps one, and `owners_eq` and `get_shared_ptr` never meet `ALIASED_PTR`. With pointers of the
aliasing constructor what is proved here is wrong: `owners_eq` drops a reference that it never took.

## Main definitions

* `Phase`, `Operation.step` — where a call stands, and its steps
* `sharedPtrs` — the system
* `System.references` — all that the counts are to say
* `Calm` — the calls in flight are fewer than half of `EXTERNAL_OFFSET`, and no count comes to
  `INT_MAX`

## Main results

* `inv_step` — what a step keeps
* `alive_iff_of_reaches` — a control block exists as long as something refers to it
-/

set_option autoImplicit false

namespace Yalantinglibs.Util.AtomicSharedPtr

open TransitionSystem AtomicRegister

/-- `EXTERNAL_OFFSET`. -/
def externalOffset : ℕ := 0x2000

/-- `batchcount` of `takeOwnedBase`. -/
def batchCount : ℕ := externalOffset / 2

/-- `PackedSyncPtr`: the control block, and the local count. -/
structure PackedPtr where
  base : Option ℕ
  localCount : ℕ
deriving DecidableEq

/-- `get_newptr` without the count. -/
def PackedPtr.new (n : Option ℕ) : PackedPtr := ⟨n, 0⟩

/-- A call of `load`, `store`, `exchange` or `compare_exchange_weak`, with control blocks. -/
abbrev PtrCall := Call (Option ℕ)

/-- Where a call stands: each phase but the last ends with an access to what is shared. -/
inductive Phase
  /-- in `get_newptr`, before `add_external` -/
  | newPtr
  /-- in `takeOwnedBase`, before the pointer is loaded -/
  | load
  /-- before the compare-exchange of `takeOwnedBase` -/
  | take (seen : PackedPtr)
  /-- before `inc_shared_count` of `takeOwnedBase` -/
  | push (owned : PackedPtr)
  /-- in `putOwnedBase`, before the pointer is loaded -/
  | putLoad (owned : PackedPtr)
  /-- before the compare-exchange of `putOwnedBase` -/
  | put (owned seen : PackedPtr)
  /-- before `release_shared` of `putOwnedBase` -/
  | putGlobal (owned : PackedPtr)
  /-- `compare_exchange_weak` behind `takeOwnedBase` -/
  | taken (old : PackedPtr)
  /-- before the old value of `expected` is released -/
  | dropExpected (old : PackedPtr)
  /-- before `release_external(newptr)` -/
  | releaseNew (old : PackedPtr)
  /-- before `release_external(oldptr, -1)` -/
  | releaseTaken (old : PackedPtr)
  /-- before `ptr_.exchange` -/
  | swap
  /-- `exchange` before `get_shared_ptr(old)` -/
  | share (old : PackedPtr)
  /-- before `release_external(old)` -/
  | releaseOld (old : PackedPtr)
  | returned (result : Result (Option ℕ))
deriving DecidableEq

/-- What a step does to the count of a control block. -/
inductive CountEffect
  | none
  /-- `inc_shared_count` -/
  | inc (b n : ℕ)
  /-- `release_shared` -/
  | release (b n : ℕ)
deriving DecidableEq

/-- A step: the next phase, the pointer behind it, and what happens to a count. -/
abbrev Outcome := Phase × PackedPtr × CountEffect

/-- Where a call stands behind `get_newptr`. -/
def PtrCall.afterNewPtr : PtrCall → Phase
  | .store _ | .exchange _ => .swap
  | .load | .compareExchange _ _ => .load

/-- `get_newptr`: `store` and `exchange` move their pointer, `compare_exchange_weak` copies it. -/
def PtrCall.addExternal : PtrCall → CountEffect
  | .store (some b) | .exchange (some b) => .inc b (externalOffset - 1)
  | .compareExchange _ (some b) => .inc b externalOffset
  | _ => .none

/-- Where a call stands behind `takeOwnedBase`. -/
def PtrCall.afterTake (owned : PackedPtr) : PtrCall → Phase
  | .compareExchange _ _ => .taken owned
  | _ => .returned (.loaded owned.base)

/-- The loop of `takeOwnedBase`, with the pointer that has been loaded. -/
def PtrCall.takeFrom (call : PtrCall) (seen : PackedPtr) : Phase :=
  if seen.base = none then call.afterTake seen else .take seen

/-- The loop of `putOwnedBase`, with the pointer that has been loaded. -/
def putFrom (owned seen : PackedPtr) : Phase :=
  if seen.base = owned.base ∧ seen.localCount > batchCount then .put owned seen
  else .putGlobal owned

/-- `release_shared` of the control block, if there is one. -/
def releaseEffect (base : Option ℕ) (n : ℕ) : CountEffect :=
  match base with
  | none => .none
  | some b => .release b n

/-- A step of a call on a pointer `word`; a weak compare-exchange may fail without a reason. -/
def Phase.step (call : PtrCall) (word : PackedPtr) (spurious : Bool) : Phase → Option Outcome
  | .newPtr => some (call.afterNewPtr, word, call.addExternal)
  | .load => some (call.takeFrom word, word, .none)
  | .take seen =>
    if seen.localCount + 1 > externalOffset then
      -- too many at once: the thread yields
      some (call.takeFrom word, word, .none)
    else if word = seen ∧ spurious = false then
      let owned : PackedPtr := ⟨seen.base, seen.localCount + 1⟩
      some (if owned.localCount > batchCount then .push owned else call.afterTake owned,
        owned, .none)
    else some (call.takeFrom word, word, .none)
  | .push owned =>
    owned.base.map fun b => (.putLoad owned, word, .inc b batchCount)
  | .putLoad owned => some (putFrom owned word, word, .none)
  | .put owned seen =>
    if word = seen ∧ spurious = false then
      some (call.afterTake owned, ⟨seen.base, seen.localCount - batchCount⟩, .none)
    else some (putFrom owned word, word, .none)
  | .putGlobal owned => some (call.afterTake owned, word, releaseEffect owned.base batchCount)
  | .taken old =>
    match call with
    | .compareExchange expected desired =>
      if old.base ≠ expected then some (.dropExpected old, word, .none)
      else if word = old ∧ spurious = false then
        some (.releaseTaken old, .new desired, .none)
      else some (.dropExpected old, word, .none)
    | _ => none
  | .dropExpected old =>
    match call with
    | .compareExchange expected _ => some (.releaseNew old, word, releaseEffect expected 1)
    | _ => none
  | .releaseNew old =>
    match call with
    | .compareExchange _ desired =>
      some (.returned (.compared false old.base), word, releaseEffect desired externalOffset)
    | _ => none
  | .releaseTaken old =>
    match call with
    | .compareExchange expected _ =>
      some (.returned (.compared true expected), word,
        releaseEffect old.base (externalOffset - (old.localCount - 1)))
    | _ => none
  | .swap =>
    match call with
    | .store desired => some (.releaseOld word, .new desired, .none)
    | .exchange desired =>
      some (if word.base = none then .returned (.exchanged none) else .share word,
        .new desired, .none)
    | _ => none
  | .share old => old.base.map fun b => (.releaseOld old, word, .inc b 1)
  | .releaseOld old =>
    match call with
    | .store _ =>
      some (.returned .stored, word, releaseEffect old.base (externalOffset - old.localCount))
    | .exchange _ =>
      some (.returned (.exchanged old.base), word,
        releaseEffect old.base (externalOffset - old.localCount))
    | _ => none
  | .returned _ => none

/-- A call that has been made on one of the pointers. -/
structure Operation where
  cell : ℕ
  call : PtrCall
  phase : Phase
deriving DecidableEq

/-- The atomic pointers, the control blocks, the `shared_ptr`s that no call deals with, and the
calls. -/
structure System where
  cells : List PackedPtr
  /-- `_M_use_count`, an `_Atomic_word` -/
  useCount : ℕ → BitVec 32
  alive : ℕ → Bool
  held : Multiset ℕ
  operations : List Operation

/-- Some `shared_ptr`s to a control block, or none to the null pointer. -/
def refs (base : Option ℕ) (n : ℕ) : Multiset ℕ :=
  match base with
  | none => 0
  | some b => Multiset.replicate n b

/-- The `shared_ptr`s that are given to a call. -/
def PtrCall.inputs : PtrCall → Multiset ℕ
  | .load => 0
  | .store desired | .exchange desired => refs desired 1
  | .compareExchange expected desired => refs expected 1 + refs desired 1

/-- The `shared_ptr`s that are there when a call returns. -/
def PtrCall.outputs (call : PtrCall) : Phase → Multiset ℕ
  | .returned (.loaded value) => refs value 1
  | .returned (.exchanged old) => refs old 1
  | .returned (.compared _ expected) =>
    match call with
    | .compareExchange _ desired => refs expected 1 + refs desired 1
    | _ => 0
  | _ => 0

/-- Where a call begins. -/
def PtrCall.begin : PtrCall → Phase
  | .load => .load
  | _ => .newPtr

/-- What happens to the counts; a block whose count gets to zero is destroyed. -/
def System.apply (s : System) : CountEffect → System
  | .none => s
  | .inc b n =>
    { s with useCount := Function.update s.useCount b (s.useCount b + BitVec.ofNat 32 n) }
  | .release b n =>
    { s with
      useCount := Function.update s.useCount b (s.useCount b - BitVec.ofNat 32 n)
      alive := Function.update s.alive b (s.alive b && s.useCount b ≠ BitVec.ofNat 32 n) }

/-- What happens next. -/
inductive Action
  /-- `make_shared`, at an address that is free -/
  | make (b : ℕ)
  /-- a `shared_ptr` is copied -/
  | copy (b : ℕ)
  /-- a `shared_ptr` is destroyed -/
  | drop (b : ℕ)
  | call (cell : ℕ) (call : PtrCall)
  | turn (k : ℕ) (spurious : Bool)

/-- The steps of the system. -/
def System.step (s : System) : Action → Option System
  | .make b =>
    if s.alive b then none
    else some { s with
      useCount := Function.update s.useCount b 1
      alive := Function.update s.alive b true
      held := s.held + {b} }
  | .copy b => if b ∈ s.held then some { s.apply (.inc b 1) with held := s.held + {b} } else none
  | .drop b =>
    if b ∈ s.held then some { s.apply (.release b 1) with held := s.held - {b} } else none
  | .call cell call =>
    if call.inputs ≤ s.held ∧ cell < s.cells.length then
      some { s with
        held := s.held - call.inputs
        operations := s.operations ++ [⟨cell, call, call.begin⟩] }
    else none
  | .turn k spurious =>
    s.operations[k]?.bind fun op => s.cells[op.cell]?.bind fun word =>
      (op.phase.step op.call word spurious).map fun next =>
        { s.apply next.2.2 with
          cells := s.cells.set op.cell next.2.1
          held := s.held + op.call.outputs next.1
          operations := s.operations.set k { op with phase := next.1 } }

/-- So many null pointers. -/
def sharedPtrs (cells : ℕ) : TransitionSystem System Action where
  init := ⟨List.replicate cells (.new none), fun _ => 0, fun _ => false, 0, []⟩
  step := System.step

/-! ### What the counts are to say -/

/-- What a call has taken out of the counts behind `get_newptr`. -/
def PtrCall.kept : PtrCall → Multiset ℕ
  | .load => 0
  | .store desired | .exchange desired => refs desired externalOffset
  | .compareExchange expected desired => refs expected 1 + refs desired (1 + externalOffset)

/-- What a call has taken out of the counts where it stands. -/
def Phase.credit (call : PtrCall) : Phase → Multiset ℕ
  | .newPtr => call.inputs
  | .load | .take _ | .swap => call.kept
  | .push owned | .taken owned | .dropExpected owned => call.kept + refs owned.base 1
  | .putLoad owned | .put owned _ | .putGlobal owned => call.kept + refs owned.base (1 + batchCount)
  | .releaseNew old =>
    match call with
    | .compareExchange _ desired => refs desired (1 + externalOffset) + refs old.base 1
    | _ => 0
  | .releaseTaken old =>
    call.inputs + refs old.base (externalOffset - (old.localCount - 1))
  | .share old => refs old.base (externalOffset - old.localCount)
  | .releaseOld old =>
    match call with
    | .exchange _ => refs old.base 1 + refs old.base (externalOffset - old.localCount)
    | _ => refs old.base (externalOffset - old.localCount)
  | .returned _ => 0

/-- What a stored pointer has taken out of the count. -/
def PackedPtr.external (p : PackedPtr) : Multiset ℕ := refs p.base (externalOffset - p.localCount)

/-- All that the counts are to say. -/
def System.references (s : System) : Multiset ℕ :=
  s.held + (s.cells.map PackedPtr.external).sum +
    (s.operations.map fun op => op.phase.credit op.call).sum

/-- The control block that a call is about to use. -/
def Operation.touches (op : Operation) : Option ℕ :=
  match op.phase with
  | .newPtr =>
    match op.call with
    | .load => none
    | .store desired | .exchange desired | .compareExchange _ desired => desired
  | .push owned | .putGlobal owned => owned.base
  | .dropExpected _ =>
    match op.call with
    | .compareExchange expected _ => expected
    | _ => none
  | .releaseNew _ =>
    match op.call with
    | .compareExchange _ desired => desired
    | _ => none
  | .taken old | .releaseTaken old | .share old | .releaseOld old => old.base
  | _ => none

/-- The call has not returned. -/
def Operation.inFlight (op : Operation) : Bool :=
  match op.phase with
  | .returned _ => false
  | _ => true

/-- What an action does to a count. -/
def System.effect (s : System) : Action → CountEffect
  | .copy b => .inc b 1
  | .drop b => .release b 1
  | .turn k spurious =>
    ((s.operations[k]?.bind fun op => s.cells[op.cell]?.bind fun word =>
      (op.phase.step op.call word spurious).map fun next => next.2.2).getD .none)
  | .make _ | .call _ _ => .none

/-- A count that is raised stays below `INT_MAX`, as `inc_shared_count` asserts. -/
def CountEffect.Fits (s : System) : CountEffect → Prop
  | .inc b n => (s.useCount b).toInt + n < 2 ^ 31 - 1
  | _ => True

/-- A call begins where fewer than half of `EXTERNAL_OFFSET` are in flight with it; and the counts
have room. -/
def Calm (s : System) (a : Action) : Prop :=
  (s.effect a).Fits s ∧
    match a with
    | .call _ _ => s.operations.countP Operation.inFlight + 1 < batchCount
    | _ => True

instance (s : System) (e : CountEffect) : Decidable (e.Fits s) := by
  cases e <;> dsimp only [CountEffect.Fits] <;> infer_instance

instance (s : System) (a : Action) : Decidable (Calm s a) := by
  unfold Calm
  cases a <;> infer_instance

/-- Calls that go on to raise a local count first. -/
def PtrCall.Takes (call : PtrCall) : Prop :=
  call = .load ∨ ∃ expected desired, call = .compareExchange expected desired

/-- A local count that has been raised. -/
def PackedPtr.Owned (p : PackedPtr) : Prop :=
  p.base ≠ none → 1 ≤ p.localCount ∧ p.localCount ≤ externalOffset

/-- A call that is about to move a batch of the local count of this block. -/
def Phase.pushes (b : ℕ) : Phase → ℕ
  | .push owned | .putLoad owned | .put owned _ => if owned.base = some b then 1 else 0
  | _ => 0

/-- The same for the pointer with this number. -/
def Operation.pushesOn (cell b : ℕ) (op : Operation) : ℕ :=
  if op.cell = cell then op.phase.pushes b else 0

/-- What holds while a call stands there. -/
def Phase.Good (call : PtrCall) : Phase → Prop
  | .newPtr => call ≠ .load
  | .load | .take _ => call.Takes
  | .push owned | .putLoad owned | .putGlobal owned => call.Takes ∧ owned.Owned
  | .put owned seen =>
    call.Takes ∧ owned.Owned ∧ seen.base = owned.base ∧ batchCount < seen.localCount
  | .taken old | .dropExpected old | .releaseNew old | .releaseTaken old =>
    (∃ expected desired, call = .compareExchange expected desired) ∧ old.Owned
  | .swap => ∃ desired, call = .store desired ∨ call = .exchange desired
  | .share old =>
    (∃ desired, call = .exchange desired) ∧ (old.base ≠ none → old.localCount < externalOffset)
  | .releaseOld old =>
    (∃ desired, call = .store desired ∨ call = .exchange desired) ∧
      (old.base ≠ none → old.localCount < externalOffset)
  | .returned _ => True

section Refs

variable {base : Option ℕ} {b m n : ℕ}

theorem externalOffset_eq : externalOffset = batchCount + batchCount := rfl

theorem batchCount_pos : 0 < batchCount := by decide

theorem refs_add : refs base (m + n) = refs base m + refs base n := by
  cases base with
  | none => rfl
  | some b => exact Multiset.replicate_add m n b

theorem mem_refs : b ∈ refs base n ↔ base = some b ∧ n ≠ 0 := by
  cases base with
  | none => exact ⟨fun h => absurd h (Multiset.notMem_zero b), fun h => absurd h.1 (by simp)⟩
  | some c =>
    rw [refs, Multiset.mem_replicate, Option.some.injEq]
    exact ⟨fun h => ⟨h.2.symm, h.1⟩, fun h => ⟨h.2, h.1.symm⟩⟩

end Refs

/-- A step that does this to a count turns what the counts are to say from the first into the
second. -/
def CountEffect.Balances (before after : Multiset ℕ) : CountEffect → Prop
  | .none => before = after
  | .inc b n => b ∈ before ∧ before + Multiset.replicate n b = after
  | .release b n => 0 < n ∧ before = after + Multiset.replicate n b

section Balances

variable {before after rest : Multiset ℕ} {e : CountEffect} {s : System} {base : Option ℕ} {b n : ℕ}

theorem CountEffect.Balances.add (h : e.Balances before after) (rest : Multiset ℕ) :
    e.Balances (before + rest) (after + rest) := by
  cases e with
  | none => exact congrArg (· + rest) h
  | inc b n => exact ⟨Multiset.mem_add.mpr (.inl h.1), by rw [add_right_comm, h.2]⟩
  | release b n => exact ⟨h.1, by rw [h.2, add_right_comm]⟩

/-- Where there is no block, nothing is released. -/
theorem balances_release (hn : base ≠ none → 0 < n) (m : Multiset ℕ) :
    (releaseEffect base n).Balances (m + refs base n) m := by
  cases base with
  | none => exact add_zero m
  | some b => exact ⟨hn (Option.some_ne_none b), rfl⟩

theorem toInt_add_ofNat {u : BitVec 32} (hu : 0 ≤ u.toInt) (h : u.toInt + n < 2 ^ 31) :
    (u + BitVec.ofNat 32 n).toInt = u.toInt + n := by
  simp only [BitVec.toInt, BitVec.toNat_add, BitVec.toNat_ofNat] at hu h ⊢
  have := u.isLt
  omega

theorem toInt_sub_ofNat {u : BitVec 32} (h : (n : ℤ) ≤ u.toInt) :
    (u - BitVec.ofNat 32 n).toInt = u.toInt - n := by
  simp only [BitVec.toInt, BitVec.toNat_sub, BitVec.toNat_ofNat] at h ⊢
  have := u.isLt
  omega

theorem eq_ofNat_iff {u : BitVec 32} (h : (n : ℤ) ≤ u.toInt) :
    u = BitVec.ofNat 32 n ↔ u.toInt = n := by
  have := u.isLt
  constructor
  · rintro rfl
    simp only [BitVec.toInt, BitVec.toNat_ofNat] at h ⊢
    omega
  · intro heq
    apply BitVec.eq_of_toNat_eq
    simp only [BitVec.toInt, BitVec.toNat_ofNat] at heq ⊢
    omega

/-- The counts go along with what they are to say. -/
theorem apply_useCount (h : e.Balances before after) (hfits : e.Fits s)
    (huse : ∀ b, (s.useCount b).toInt = before.count b) (b : ℕ) :
    ((s.apply e).useCount b).toInt = after.count b := by
  cases e with
  | none => exact h ▸ huse b
  | inc c n =>
    obtain ⟨-, rfl⟩ := h
    rw [Multiset.count_add, Multiset.count_replicate]
    change (Function.update s.useCount c (s.useCount c + BitVec.ofNat 32 n) b).toInt = _
    by_cases hb : b = c
    · have hroom : (s.useCount c).toInt + n < 2 ^ 31 - 1 := hfits
      have hpos : 0 ≤ (s.useCount c).toInt := by
        rw [huse]
        exact Int.natCast_nonneg _
      rw [hb, Function.update_self, toInt_add_ofNat hpos (by omega), huse, if_pos rfl]
      rfl
    · rw [Function.update_of_ne hb, huse, if_neg (Ne.symm hb)]
      rfl
  | release c n =>
    obtain ⟨-, rfl⟩ := h
    change (Function.update s.useCount c (s.useCount c - BitVec.ofNat 32 n) b).toInt = _
    by_cases hb : b = c
    · have hcount : (s.useCount c).toInt = after.count c + n := by
        rw [huse, Multiset.count_add, Multiset.count_replicate_self]
        rfl
      rw [hb, Function.update_self, toInt_sub_ofNat (by omega), hcount]
      omega
    · rw [Function.update_of_ne hb, huse, Multiset.count_add, Multiset.count_replicate,
        if_neg (Ne.symm hb)]
      rfl

/-- A block is destroyed with the last reference to it. -/
theorem apply_alive (h : e.Balances before after)
    (huse : ∀ b, (s.useCount b).toInt = before.count b)
    (halive : ∀ b, s.alive b = true ↔ b ∈ before) (b : ℕ) :
    (s.apply e).alive b = true ↔ b ∈ after := by
  cases e with
  | none => exact h ▸ halive b
  | inc c n =>
    obtain ⟨hc, rfl⟩ := h
    refine (halive b).trans ⟨fun hb => Multiset.mem_add.mpr (.inl hb), fun hb => ?_⟩
    obtain hb | hb := Multiset.mem_add.mp hb
    · exact hb
    · exact Multiset.eq_of_mem_replicate hb ▸ hc
  | release c n =>
    obtain ⟨hn, rfl⟩ := h
    change Function.update s.alive c (s.alive c && s.useCount c ≠ BitVec.ofNat 32 n) b = true ↔ _
    by_cases hb : b = c
    · have hmem : c ∈ after + Multiset.replicate n c :=
        Multiset.mem_add.mpr (.inr (Multiset.mem_replicate.mpr ⟨hn.ne', rfl⟩))
      have hcount : (s.useCount c).toInt = after.count c + n := by
        rw [huse, Multiset.count_add, Multiset.count_replicate_self]
        rfl
      rw [hb, Function.update_self, (halive c).mpr hmem, Bool.true_and, decide_eq_true_eq, ne_eq,
        eq_ofNat_iff (by omega), hcount, ← Multiset.count_pos]
      omega
    · rw [Function.update_of_ne hb, halive, Multiset.mem_add, Multiset.mem_replicate]
      exact or_iff_left fun h => hb h.2

end Balances

section Steps

variable {call : PtrCall} {phase phase' : Phase} {word word' owned seen old : PackedPtr}
  {e : CountEffect}
  {spurious : Bool}

theorem credit_afterTake (h : call.Takes) :
    (call.afterTake owned).credit call + call.outputs (call.afterTake owned) =
      call.kept + refs owned.base 1 := by
  obtain rfl | ⟨expected, desired, rfl⟩ := h
  · rfl
  · exact add_zero _

theorem good_afterTake (h : call.Takes) (howned : owned.Owned) :
    (call.afterTake owned).Good call := by
  obtain rfl | ⟨expected, desired, rfl⟩ := h
  · trivial
  · exact ⟨⟨expected, desired, rfl⟩, howned⟩

theorem credit_takeFrom (h : call.Takes) :
    (call.takeFrom seen).credit call + call.outputs (call.takeFrom seen) = call.kept := by
  rw [PtrCall.takeFrom]
  split
  · rename_i hnone
    rw [credit_afterTake h, hnone]
    exact add_zero _
  · exact add_zero _

theorem good_takeFrom (h : call.Takes) : (call.takeFrom seen).Good call := by
  rw [PtrCall.takeFrom]
  split
  · rename_i hnone
    exact good_afterTake h fun hsome => absurd hnone hsome
  · exact h

theorem credit_putFrom :
    (putFrom owned seen).credit call + call.outputs (putFrom owned seen) =
      call.kept + refs owned.base (1 + batchCount) := by
  rw [putFrom]
  split <;> exact add_zero _

theorem good_putFrom (h : call.Takes) (howned : owned.Owned) : (putFrom owned seen).Good call := by
  rw [putFrom]
  split
  · rename_i hif
    exact ⟨h, howned, hif.1, hif.2⟩
  · exact ⟨h, howned⟩

/-- A step of a call moves what the counts are to say from one place to another, but for what it
does to a count. -/
structure Balanced (call : PtrCall) (phase : Phase) (word : PackedPtr) (phase' : Phase)
    (word' : PackedPtr) (e : CountEffect) : Prop where
  balances : e.Balances (phase.credit call + word.external)
    (phase'.credit call + call.outputs phase' + word'.external)
  good : phase'.Good call

/-- A step that leaves the pointer as it is. -/
theorem Balanced.of_word (h : e.Balances (phase.credit call) (phase'.credit call + call.outputs phase'))
    (hgood : phase'.Good call) : Balanced call phase word phase' word e :=
  ⟨h.add word.external, hgood⟩

theorem refs_newPtr {b : ℕ} :
    refs (some b) 1 + Multiset.replicate (externalOffset - 1) b = refs (some b) externalOffset := by
  rw [refs, refs, ← Multiset.replicate_add]
  exact congrArg (Multiset.replicate · b) (Nat.add_sub_cancel' (by decide))

/-- `get_newptr`. -/
theorem balanced_newPtr (hgood : call ≠ .load) :
    Balanced call .newPtr word call.afterNewPtr word call.addExternal := by
  cases call with
  | load => exact absurd rfl hgood
  | store desired =>
    refine .of_word ?_ ⟨desired, .inl rfl⟩
    cases desired with
    | none => rfl
    | some b =>
      exact ⟨mem_refs.mpr ⟨rfl, Nat.one_ne_zero⟩, refs_newPtr.trans (add_zero _).symm⟩
  | exchange desired =>
    refine .of_word ?_ ⟨desired, .inr rfl⟩
    cases desired with
    | none => rfl
    | some b =>
      exact ⟨mem_refs.mpr ⟨rfl, Nat.one_ne_zero⟩, refs_newPtr.trans (add_zero _).symm⟩
  | compareExchange expected desired =>
    refine .of_word ?_ (.inr ⟨expected, desired, rfl⟩)
    cases desired with
    | none => exact (add_zero _).symm
    | some b =>
      refine ⟨Multiset.mem_add.mpr (.inr (mem_refs.mpr ⟨rfl, Nat.one_ne_zero⟩)), ?_⟩
      change refs expected 1 + refs (some b) 1 + refs (some b) externalOffset =
        refs expected 1 + refs (some b) (1 + externalOffset) + 0
      rw [refs_add, add_zero, add_assoc]

/-- The compare-exchange of `takeOwnedBase`. -/
theorem balanced_take (h : call.Takes) (hlt : word.localCount < externalOffset) :
    Balanced call (.take word) word
      (if word.localCount + 1 > batchCount then .push ⟨word.base, word.localCount + 1⟩
        else call.afterTake ⟨word.base, word.localCount + 1⟩)
      ⟨word.base, word.localCount + 1⟩ .none := by
  have howned : PackedPtr.Owned ⟨word.base, word.localCount + 1⟩ :=
    fun _ => ⟨Nat.le_add_left 1 _, hlt⟩
  have hcredit :
      call.kept + word.external =
        call.kept + refs word.base 1 + PackedPtr.external ⟨word.base, word.localCount + 1⟩ := by
    rw [PackedPtr.external, PackedPtr.external, add_assoc, ← refs_add]
    congr 2
    dsimp only
    omega
  split
  · exact ⟨hcredit.trans (by rw [Phase.credit]; exact congrArg (· + _) (add_zero _).symm), h, howned⟩
  · exact ⟨hcredit.trans (by rw [credit_afterTake h]), good_afterTake h howned⟩

/-- The compare-exchange of `putOwnedBase`. -/
theorem balanced_put (h : call.Takes) (howned : owned.Owned) (hbase : word.base = owned.base)
    (hbatch : batchCount < word.localCount) (hlt : word.localCount < externalOffset) :
    Balanced call (.put owned word) word (call.afterTake owned)
      ⟨word.base, word.localCount - batchCount⟩ .none := by
  refine ⟨?_, good_afterTake h howned⟩
  rw [credit_afterTake h]
  have hcount : externalOffset - (word.localCount - batchCount) =
      batchCount + (externalOffset - word.localCount) := by
    omega
  change call.kept + refs owned.base (1 + batchCount) + refs word.base (externalOffset - word.localCount) =
    call.kept + refs owned.base 1 + refs word.base (externalOffset - (word.localCount - batchCount))
  rw [hcount, refs_add, refs_add, hbase]
  simp only [add_assoc]

/-- The exchange of a pointer that has been compared. -/
theorem balanced_success {expected desired : Option ℕ} (howned : word.Owned) :
    Balanced (.compareExchange expected desired) (.taken word) word (.releaseTaken word)
      (.new desired) .none := by
  refine ⟨?_, ⟨expected, desired, rfl⟩, howned⟩
  have hcount : refs word.base 1 + refs word.base (externalOffset - word.localCount) =
      refs word.base (externalOffset - (word.localCount - 1)) := by
    rw [← refs_add]
    by_cases hnone : word.base = none
    · rw [hnone]
      rfl
    · have := howned hnone
      congr 1
      omega
  change refs expected 1 + refs desired (1 + externalOffset) + refs word.base 1 + word.external =
    refs expected 1 + refs desired 1 + refs word.base (externalOffset - (word.localCount - 1)) + 0 +
      refs desired externalOffset
  rw [← hcount, refs_add, PackedPtr.external, add_zero]
  simp only [add_assoc, add_left_comm, add_comm]

/-- `inc_shared_count` of `takeOwnedBase`: a batch is counted that the local count has taken. -/
theorem balanced_push {b : ℕ} (hb : owned.base = some b) (hgood : (Phase.push owned).Good call) :
    Balanced call (.push owned) word (.putLoad owned) word (.inc b batchCount) := by
  refine .of_word ⟨?_, ?_⟩ hgood
  · exact Multiset.mem_add.mpr (.inr (mem_refs.mpr ⟨hb, Nat.one_ne_zero⟩))
  · change call.kept + refs owned.base 1 + Multiset.replicate batchCount b =
      call.kept + refs owned.base (1 + batchCount) + 0
    rw [refs_add, add_zero, add_assoc, hb]
    rfl

theorem balanced_dropExpected {expected desired : Option ℕ} (howned : old.Owned) :
    Balanced (.compareExchange expected desired) (.dropExpected old) word (.releaseNew old) word
      (releaseEffect expected 1) := by
  refine .of_word ?_ ⟨⟨expected, desired, rfl⟩, howned⟩
  change (releaseEffect expected 1).Balances
    (refs expected 1 + refs desired (1 + externalOffset) + refs old.base 1)
    (refs desired (1 + externalOffset) + refs old.base 1 + 0)
  rw [add_zero, add_assoc, add_comm (refs expected 1)]
  exact balances_release (fun _ => Nat.one_pos) _

/-- `release_external(newptr)`: what `add_external` has counted for nothing. -/
theorem balanced_releaseNew {expected desired : Option ℕ} :
    Balanced (.compareExchange expected desired) (.releaseNew old) word
      (.returned (.compared false old.base)) word (releaseEffect desired externalOffset) := by
  refine .of_word ?_ trivial
  change (releaseEffect desired externalOffset).Balances
    (refs desired (1 + externalOffset) + refs old.base 1)
    (0 + (refs old.base 1 + refs desired 1))
  rw [zero_add, refs_add, add_right_comm, add_comm (refs desired 1)]
  exact balances_release (fun _ => by decide) _

/-- `release_external(oldptr, -1)`: one of those that the local count has taken is the own one. -/
theorem balanced_releaseTaken {expected desired : Option ℕ} (howned : old.Owned) :
    Balanced (.compareExchange expected desired) (.releaseTaken old) word
      (.returned (.compared true expected)) word
      (releaseEffect old.base (externalOffset - (old.localCount - 1))) := by
  refine .of_word ?_ trivial
  change (releaseEffect old.base (externalOffset - (old.localCount - 1))).Balances
    (refs expected 1 + refs desired 1 + refs old.base (externalOffset - (old.localCount - 1)))
    (0 + (refs expected 1 + refs desired 1))
  rw [zero_add]
  refine balances_release (fun hne => ?_) _
  have := howned hne
  omega

/-- `ptr_.exchange`, with a phase in which the call has what was counted for the old pointer. -/
theorem balanced_swap {desired : Option ℕ}
    (hcall : Phase.swap.credit call = refs desired externalOffset)
    (hcredit : phase'.credit call + call.outputs phase' = word.external)
    (hgood : phase'.Good call) : Balanced call .swap word phase' (.new desired) .none := by
  refine ⟨?_, hgood⟩
  change Phase.swap.credit call + word.external =
    phase'.credit call + call.outputs phase' + refs desired externalOffset
  rw [hcall, hcredit, add_comm]

/-- `get_shared_ptr` of `exchange`. -/
theorem balanced_share {b : ℕ} {desired : Option ℕ} (hb : old.base = some b)
    (hlt : old.base ≠ none → old.localCount < externalOffset) :
    Balanced (.exchange desired) (.share old) word (.releaseOld old) word (.inc b 1) := by
  have hpos := hlt (by rw [hb]; exact Option.some_ne_none b)
  refine .of_word ⟨mem_refs.mpr ⟨hb, by omega⟩, ?_⟩ ⟨⟨desired, .inr rfl⟩, hlt⟩
  change refs old.base (externalOffset - old.localCount) + Multiset.replicate 1 b =
    refs old.base 1 + refs old.base (externalOffset - old.localCount) + 0
  rw [add_zero, add_comm, hb]
  rfl

/-- `release_external` of the pointer that has been replaced. -/
theorem balanced_releaseOld {result : Result (Option ℕ)}
    (hcredit : (Phase.releaseOld old).credit call =
      call.outputs (.returned result) + refs old.base (externalOffset - old.localCount))
    (hlt : old.base ≠ none → old.localCount < externalOffset) :
    Balanced call (.releaseOld old) word (.returned result) word
      (releaseEffect old.base (externalOffset - old.localCount)) := by
  refine .of_word ?_ trivial
  rw [hcredit, Phase.credit, zero_add]
  exact balances_release (fun hne => Nat.sub_pos_of_lt (hlt hne)) _

/-- One case for each place where a call may stand. -/
theorem balanced_step (hgood : phase.Good call)
    (hword : word.base ≠ none → word.localCount < externalOffset)
    (h : phase.step call word spurious = some (phase', word', e)) :
    Balanced call phase word phase' word' e := by
  cases phase with
  | newPtr =>
    cases h
    exact balanced_newPtr hgood
  | load =>
    cases h
    exact .of_word (credit_takeFrom hgood).symm (good_takeFrom hgood)
  | take seen =>
    rw [Phase.step] at h
    -- too many at once, or another word: the pointer is loaded again
    have hstay : Balanced call (.take seen) word (call.takeFrom word) word .none :=
      .of_word (credit_takeFrom hgood).symm (good_takeFrom hgood)
    split_ifs at h with hmany hsame
    · cases h
      exact hstay
    · obtain ⟨rfl, -⟩ := hsame
      cases h
      exact balanced_take hgood (Nat.not_lt.mp hmany)
    · cases h
      exact hstay
  | push owned =>
    obtain ⟨b, hb, hnext⟩ := Option.map_eq_some_iff.mp h
    cases hnext
    exact balanced_push hb hgood
  | putLoad owned =>
    cases h
    exact .of_word credit_putFrom.symm (good_putFrom hgood.1 hgood.2)
  | put owned seen =>
    rw [Phase.step] at h
    split_ifs at h with hsame
    · obtain ⟨rfl, -⟩ := hsame
      obtain ⟨htakes, howned, hbase, hbatch⟩ := hgood
      cases h
      by_cases hnone : word.base = none
      · -- without a block there is nothing to count
        refine ⟨?_, good_afterTake htakes howned⟩
        rw [credit_afterTake htakes]
        have hzero (n : ℕ) : refs none n = 0 := rfl
        rw [CountEffect.Balances, Phase.credit, PackedPtr.external, PackedPtr.external, ← hbase]
        simp only [hnone, hzero]
      · exact balanced_put htakes howned hbase hbatch (hword hnone)
    · cases h
      exact .of_word credit_putFrom.symm (good_putFrom hgood.1 hgood.2.1)
  | putGlobal owned =>
    cases h
    refine .of_word ?_ (good_afterTake hgood.1 hgood.2)
    rw [credit_afterTake hgood.1, Phase.credit, refs_add, ← add_assoc]
    exact balances_release (fun _ => batchCount_pos) _
  | taken old =>
    obtain ⟨⟨expected, desired, rfl⟩, howned⟩ := hgood
    -- a comparison that fails, for whatever reason, goes on with the failure branch
    have hstay : Balanced (.compareExchange expected desired) (.taken old) word (.dropExpected old)
        word .none := .of_word (add_zero _).symm ⟨⟨expected, desired, rfl⟩, howned⟩
    rw [Phase.step] at h
    split_ifs at h with hne hsame
    · cases h
      exact hstay
    · obtain ⟨rfl, -⟩ := hsame
      cases h
      exact balanced_success howned
    · cases h
      exact hstay
  | dropExpected old =>
    obtain ⟨⟨expected, desired, rfl⟩, howned⟩ := hgood
    cases h
    exact balanced_dropExpected howned
  | releaseNew old =>
    obtain ⟨⟨expected, desired, rfl⟩, howned⟩ := hgood
    cases h
    exact balanced_releaseNew
  | releaseTaken old =>
    obtain ⟨⟨expected, desired, rfl⟩, howned⟩ := hgood
    cases h
    exact balanced_releaseTaken howned
  | swap =>
    obtain ⟨desired, rfl | rfl⟩ := hgood
    · cases h
      exact balanced_swap rfl (add_zero _) ⟨⟨desired, .inl rfl⟩, hword⟩
    · cases h
      split
      · rename_i hnone
        -- there was no pointer: nothing is shared, and nothing released
        refine balanced_swap rfl ?_ trivial
        rw [PackedPtr.external, hnone]
        exact add_zero _
      · exact balanced_swap rfl (add_zero _) ⟨⟨desired, rfl⟩, hword⟩
  | share old =>
    obtain ⟨b, hb, hnext⟩ := Option.map_eq_some_iff.mp h
    cases hnext
    obtain ⟨⟨desired, rfl⟩, hlt⟩ := hgood
    exact balanced_share hb hlt
  | releaseOld old =>
    obtain ⟨⟨desired, rfl | rfl⟩, hlt⟩ := hgood
    · cases h
      exact balanced_releaseOld (zero_add _).symm hlt
    · cases h
      exact balanced_releaseOld rfl hlt
  | returned result => cases h

/-- Who does not move a batch has seen that there is none. -/
theorem localCount_putFrom {b others : ℕ} (hb : word.base = some b)
    (hle : word.localCount ≤ batchCount + (Phase.putLoad owned).pushes b + others) :
    word.localCount ≤ batchCount + (putFrom owned word).pushes b + others := by
  rw [putFrom]
  split
  · exact hle
  · rename_i hif
    change word.localCount ≤ batchCount + 0 + others
    change word.localCount ≤ batchCount + (if owned.base = some b then 1 else 0) + others at hle
    split at hle
    · rename_i howned
      have := Nat.not_lt.mp fun hlt => hif ⟨hb.trans howned.symm, hlt⟩
      omega
    · exact hle

/-- A local count beyond the batch belongs to calls that are about to move a batch. -/
theorem localCount_step {b others : ℕ} (hgood : phase.Good call)
    (h : phase.step call word spurious = some (phase', word', e)) (hb : word'.base = some b)
    (hle : word.base = some b → word.localCount ≤ batchCount + phase.pushes b + others) :
    word'.localCount ≤ batchCount + phase'.pushes b + others := by
  -- a call that is not about to move a batch, and leaves the pointer as it is
  have hstay (hword : word' = word) (hpushes : phase.pushes b = 0) :
      word'.localCount ≤ batchCount + phase'.pushes b + others := by
    have := hle (hword ▸ hb)
    rw [hword]
    omega
  cases phase with
  | newPtr =>
    cases h
    exact hstay rfl rfl
  | load =>
    cases h
    exact hstay rfl rfl
  | take seen =>
    rw [Phase.step] at h
    split_ifs at h with hmany hsame
    · cases h
      exact hstay rfl rfl
    · obtain ⟨rfl, -⟩ := hsame
      cases h
      have hlt := hle hb
      change word.localCount ≤ batchCount + 0 + others at hlt
      change word.localCount + 1 ≤ _
      split
      · change _ ≤ batchCount + (if word.base = some b then 1 else 0) + others
        rw [if_pos hb]
        omega
      · rename_i hbatch
        change ¬ word.localCount + 1 > batchCount at hbatch
        omega
    · cases h
      exact hstay rfl rfl
  | push owned =>
    obtain ⟨c, -, hnext⟩ := Option.map_eq_some_iff.mp h
    cases hnext
    exact hle hb
  | putLoad owned =>
    cases h
    exact localCount_putFrom hb (hle hb)
  | put owned seen =>
    rw [Phase.step] at h
    split_ifs at h with hsame
    · obtain ⟨rfl, -⟩ := hsame
      cases h
      have hlt := hle hb
      change word.localCount ≤ batchCount + (if owned.base = some b then 1 else 0) + others at hlt
      change word.localCount - batchCount ≤ _
      have := batchCount_pos
      split at hlt <;> omega
    · cases h
      exact localCount_putFrom hb (hle hb)
  | putGlobal owned =>
    cases h
    exact hstay rfl rfl
  | taken old =>
    cases call with
    | compareExchange expected desired =>
      rw [Phase.step] at h
      split_ifs at h
      · cases h
        exact hstay rfl rfl
      · cases h
        exact Nat.zero_le _
      · cases h
        exact hstay rfl rfl
    | load => cases h
    | store desired => cases h
    | exchange desired => cases h
  | swap =>
    cases call with
    | store desired =>
      cases h
      exact Nat.zero_le _
    | exchange desired =>
      cases h
      exact Nat.zero_le _
    | load => cases h
    | compareExchange expected desired => cases h
  | dropExpected old =>
    cases call <;> cases h
    exact hstay rfl rfl
  | releaseNew old =>
    cases call <;> cases h
    exact hstay rfl rfl
  | releaseTaken old =>
    cases call <;> cases h
    exact hstay rfl rfl
  | share old =>
    obtain ⟨c, -, hnext⟩ := Option.map_eq_some_iff.mp h
    cases hnext
    exact hstay rfl rfl
  | releaseOld old => cases call <;> cases h <;> exact hstay rfl rfl
  | returned result => cases h

end Steps

/-! ### Runs -/

/-- What holds in every state. -/
structure Inv (s : System) : Prop where
  useCount : ∀ b, (s.useCount b).toInt = s.references.count b
  alive : ∀ b, s.alive b = true ↔ b ∈ s.references
  good : ∀ op ∈ s.operations, op.phase.Good op.call
  localCount : ∀ c word b, s.cells[c]? = some word → word.base = some b →
    word.localCount ≤ batchCount + (s.operations.map (Operation.pushesOn c b)).sum
  inFlight : s.operations.countP Operation.inFlight < batchCount

section Invariant

variable {cells k : ℕ} {s s' : System} {a : Action} {op : Operation}

theorem pushes_le (b : ℕ) (op : Operation) :
    op.phase.pushes b ≤ if op.inFlight then 1 else 0 := by
  have hle (base : Option ℕ) : (if base = some b then 1 else 0) ≤ 1 := by
    split <;> omega
  obtain ⟨c, call, phase⟩ := op
  cases phase with
  | push owned => exact hle owned.base
  | putLoad owned => exact hle owned.base
  | put owned seen => exact hle owned.base
  | _ => exact Nat.zero_le _

theorem pushesOn_le (c b : ℕ) (ops : List Operation) :
    (ops.map (Operation.pushesOn c b)).sum ≤ ops.countP Operation.inFlight := by
  induction ops with
  | nil => exact le_rfl
  | cons op ops ih =>
    rw [List.map_cons, List.sum_cons, List.countP_cons, Nat.add_comm]
    refine Nat.add_le_add ih ?_
    rw [Operation.pushesOn]
    split
    · exact pushes_le b op
    · exact Nat.zero_le _

/-- While few calls are in flight, no local count reaches `EXTERNAL_OFFSET`. -/
theorem Inv.localCount_lt (hinv : Inv s) {c b : ℕ} {word : PackedPtr} (hc : s.cells[c]? = some word)
    (hb : word.base = some b) : word.localCount < externalOffset := by
  have hle := hinv.localCount c word b hc hb
  have hsum := pushesOn_le c b s.operations
  have hlt := hinv.inFlight
  rw [externalOffset_eq]
  omega

theorem inv_initial : Inv (sharedPtrs cells).init := by
  have hrefs : (sharedPtrs cells).init.references = 0 := by
    change 0 + ((List.replicate cells (PackedPtr.new none)).map PackedPtr.external).sum + 0 = _
    rw [List.map_replicate, List.sum_replicate, zero_add, add_zero]
    exact nsmul_zero _
  refine ⟨fun b => ?_, fun b => ?_, fun op hop => absurd hop List.not_mem_nil,
    fun c word b hc hb => ?_, batchCount_pos⟩
  · rw [hrefs]
    rfl
  · rw [hrefs]
    exact ⟨fun h => absurd h Bool.false_ne_true, fun h => absurd h (Multiset.notMem_zero b)⟩
  · have hword := List.eq_of_mem_replicate (List.mem_of_getElem? hc)
    rw [hword] at hb
    cases hb

/-- What a step does to the counts, and to what they are to say, goes together. -/
theorem Inv.of_balances {e : CountEffect} (hinv : Inv s) (hfits : e.Fits s) (s' : System)
    (hcount : s'.useCount = (s.apply e).useCount) (halive : s'.alive = (s.apply e).alive)
    (h : e.Balances s.references s'.references) :
    (∀ b, (s'.useCount b).toInt = s'.references.count b) ∧
      ∀ b, s'.alive b = true ↔ b ∈ s'.references := by
  rw [hcount, halive]
  exact ⟨apply_useCount h hfits hinv.useCount, apply_alive h hinv.useCount hinv.alive⟩

theorem references_apply (s : System) (e : CountEffect) (m : Multiset ℕ) :
    System.references { s.apply e with held := m } = System.references { s with held := m } := by
  cases e <;> rfl

theorem references_add (s : System) (m n : Multiset ℕ) :
    System.references { s with held := m + n } = System.references { s with held := m } + n := by
  rw [System.references, System.references, add_right_comm m, add_right_comm]

/-- A call begins with what is given to it. -/
theorem credit_begin (call : PtrCall) : call.begin.credit call = call.inputs := by
  cases call <;> rfl

theorem good_begin (call : PtrCall) : call.begin.Good call := by
  cases call with
  | load => exact .inl rfl
  | store desired => exact fun h => by cases h
  | exchange desired => exact fun h => by cases h
  | compareExchange expected desired => exact fun h => by cases h

theorem inv_call {c : ℕ} {call : PtrCall} (hinv : Inv s) (hcalm : Calm s (.call c call))
    (hle : call.inputs ≤ s.held) :
    Inv { s with
      held := s.held - call.inputs
      operations := s.operations ++ [⟨c, call, call.begin⟩] } := by
  have hrefs : System.references { s with
      held := s.held - call.inputs
      operations := s.operations ++ [⟨c, call, call.begin⟩] } = s.references := by
    rw [System.references, List.map_append, List.sum_append, List.map_singleton, List.sum_singleton,
      credit_begin, ← add_assoc]
    refine (references_add s (s.held - call.inputs) call.inputs).symm.trans ?_
    rw [Multiset.sub_add_cancel hle]
  refine ⟨fun b => ?_, fun b => ?_, fun op hop => ?_, fun c' word b hc hb => ?_, ?_⟩
  · rw [hrefs]
    exact hinv.useCount b
  · rw [hrefs]
    exact hinv.alive b
  · obtain hop | hop := List.mem_append.mp hop
    · exact hinv.good op hop
    · rw [List.mem_singleton.mp hop]
      exact good_begin call
  · have := hinv.localCount c' word b hc hb
    rw [List.map_append, List.sum_append]
    omega
  · rw [List.countP_append, List.countP_singleton]
    have hcount : s.operations.countP Operation.inFlight + 1 < batchCount := hcalm.2
    split <;> omega

/-- The other pointers have the local counts that they had. -/
theorem localCount_turn {spurious : Bool} {word word' w : PackedPtr} {phase' : Phase}
    {e : CountEffect} {c b : ℕ} (hinv : Inv s) (hop : s.operations[k]? = some op)
    (hword : s.cells[op.cell]? = some word)
    (h : op.phase.step op.call word spurious = some (phase', word', e))
    (hc : (s.cells.set op.cell word')[c]? = some w) (hb : w.base = some b) :
    w.localCount ≤ batchCount +
      ((s.operations.set k { op with phase := phase' }).map (Operation.pushesOn c b)).sum := by
  obtain ⟨rest, hrest, hset⟩ := Numbering.exists_sum_map_set (Operation.pushesOn c b) hop
  rw [hset, ← Nat.add_assoc]
  by_cases hsame : op.cell = c
  · subst hsame
    have hw : word' = w := by
      obtain ⟨hlen, -⟩ := List.getElem?_eq_some_iff.mp hword
      exact Option.some.inj ((List.getElem?_set_self hlen).symm.trans hc)
    subst hw
    rw [Operation.pushesOn, if_pos rfl]
    refine localCount_step (hinv.good op (List.mem_of_getElem? hop)) h hb fun hb => ?_
    have := hinv.localCount op.cell word b hword hb
    rwa [hrest, Operation.pushesOn, if_pos rfl, ← Nat.add_assoc] at this
  · rw [Operation.pushesOn, if_neg hsame]
    have hc' : s.cells[c]? = some w := (List.getElem?_set_ne hsame).symm.trans hc
    have := hinv.localCount c w b hc' hb
    rwa [hrest, Operation.pushesOn, if_neg hsame, ← Nat.add_assoc] at this

/-- No call begins by going on with one. -/
theorem inFlight_turn {spurious : Bool} {word word' : PackedPtr} {phase' : Phase} {e : CountEffect}
    (hinv : Inv s) (hop : s.operations[k]? = some op)
    (h : op.phase.step op.call word spurious = some (phase', word', e)) :
    (s.operations.set k { op with phase := phase' }).countP Operation.inFlight < batchCount := by
  obtain ⟨hlen, hget⟩ := List.getElem?_eq_some_iff.mp hop
  have hflight : op.inFlight = true := by
    rw [Operation.inFlight]
    split
    · rename_i hphase
      rw [hphase] at h
      cases h
    · rfl
  have hpos : 0 < s.operations.countP Operation.inFlight :=
    List.countP_pos_iff.mpr ⟨op, List.mem_of_getElem? hop, hflight⟩
  have := hinv.inFlight
  rw [List.countP_set hlen, hget, hflight, if_pos rfl]
  split <;> omega

theorem inv_turn {spurious : Bool} {word word' : PackedPtr} {phase' : Phase} {e : CountEffect}
    (hinv : Inv s) (hfits : e.Fits s) (hop : s.operations[k]? = some op)
    (hword : s.cells[op.cell]? = some word)
    (h : op.phase.step op.call word spurious = some (phase', word', e)) :
    Inv { s.apply e with
      cells := s.cells.set op.cell word'
      held := s.held + op.call.outputs phase'
      operations := s.operations.set k { op with phase := phase' } } := by
  have hgood := hinv.good op (List.mem_of_getElem? hop)
  have hlt : word.base ≠ none → word.localCount < externalOffset := by
    intro hne
    obtain ⟨b, hb⟩ := Option.ne_none_iff_exists'.mp hne
    exact hinv.localCount_lt hword hb
  obtain ⟨hbalances, hgood'⟩ := balanced_step hgood hlt h
  -- what the counts are to say is that of the pointer, of the call, and of all the others
  obtain ⟨restWords, hwords, hsetWords⟩ := Numbering.exists_sum_map_set PackedPtr.external hword
  obtain ⟨restOps, hops, hsetOps⟩ :=
    Numbering.exists_sum_map_set (fun op : Operation => op.phase.credit op.call) hop
  have hrefs := hbalances.add (s.held + restWords + restOps)
  obtain ⟨huse, halive⟩ := Inv.of_balances hinv hfits { s.apply e with
      cells := s.cells.set op.cell word'
      held := s.held + op.call.outputs phase'
      operations := s.operations.set k { op with phase := phase' } } rfl rfl (by
    convert hrefs using 1
    · rw [System.references, hwords, hops]
      simp only [add_assoc, add_left_comm, add_comm]
    · rw [System.references]
      dsimp only
      rw [hsetWords, hsetOps]
      simp only [add_assoc, add_left_comm, add_comm])
  refine ⟨huse, halive, fun o ho => ?_,
    fun c w b hc hb => localCount_turn hinv hop hword h hc hb, inFlight_turn hinv hop h⟩
  obtain ho | rfl := List.mem_or_eq_of_mem_set ho
  · exact hinv.good o ho
  · exact hgood'

/-- A step keeps the invariant. -/
theorem inv_step (hinv : Inv s) (hcalm : Calm s a) (h : s.step a = some s') : Inv s' := by
  cases a with
  | make b =>
    rw [System.step] at h
    split_ifs at h with hfree
    cases h
    -- the address is free, so nothing refers to it
    have hnot : b ∉ s.references := fun hb => hfree ((hinv.alive b).mpr hb)
    have hrefs : System.references { s with
        useCount := Function.update s.useCount b 1
        alive := Function.update s.alive b true
        held := s.held + {b} } = s.references + {b} := by
      rw [System.references, System.references, add_right_comm s.held, add_right_comm]
    refine ⟨fun c => ?_, fun c => ?_, hinv.good, hinv.localCount, hinv.inFlight⟩
    · rw [hrefs, Multiset.count_add, Multiset.count_singleton]
      change (Function.update s.useCount b 1 c).toInt = _
      by_cases hc : c = b
      · rw [hc, Function.update_self, if_pos rfl, Multiset.count_eq_zero_of_notMem hnot]
        rfl
      · rw [Function.update_of_ne hc, if_neg hc]
        exact hinv.useCount c
    · rw [hrefs, Multiset.mem_add, Multiset.mem_singleton]
      change Function.update s.alive b true c = true ↔ _
      by_cases hc : c = b
      · rw [hc, Function.update_self]
        exact ⟨fun _ => .inr rfl, fun _ => rfl⟩
      · rw [Function.update_of_ne hc, hinv.alive]
        exact (or_iff_left hc).symm
  | copy b =>
    rw [System.step] at h
    split_ifs at h with hheld
    cases h
    have hmem : b ∈ s.references := Multiset.mem_add.mpr (.inl (Multiset.mem_add.mpr (.inl hheld)))
    obtain ⟨huse, halive⟩ := Inv.of_balances hinv hcalm.1
      { s.apply (.inc b 1) with held := s.held + {b} } rfl rfl (by
        rw [references_apply, references_add]
        exact ⟨hmem, rfl⟩)
    exact ⟨huse, halive, hinv.good, hinv.localCount, hinv.inFlight⟩
  | drop b =>
    rw [System.step] at h
    split_ifs at h with hheld
    cases h
    obtain ⟨huse, halive⟩ := Inv.of_balances hinv hcalm.1
      { s.apply (.release b 1) with held := s.held - {b} } rfl rfl (by
        have hcancel := Multiset.sub_add_cancel (Multiset.singleton_le.mpr hheld)
        have hadd := references_add s (s.held - {b}) {b}
        rw [hcancel] at hadd
        rw [references_apply]
        exact ⟨Nat.one_pos, hadd⟩)
    exact ⟨huse, halive, hinv.good, hinv.localCount, hinv.inFlight⟩
  | call c call =>
    rw [System.step] at h
    split_ifs at h with hif
    cases h
    exact inv_call hinv hcalm hif.1
  | turn k spurious =>
    obtain ⟨op, hop, hnext⟩ := Option.bind_eq_some_iff.mp h
    obtain ⟨word, hword, hnext⟩ := Option.bind_eq_some_iff.mp hnext
    obtain ⟨⟨phase', word', e⟩, hstep, rfl⟩ := Option.map_eq_some_iff.mp hnext
    have heffect : s.effect (.turn k spurious) = e := by
      rw [System.effect, hop, Option.bind_some, hword, Option.bind_some, hstep]
      rfl
    exact inv_turn hinv (heffect ▸ hcalm.1) hop hword hstep

theorem inv_of_reaches (h : (sharedPtrs cells).Reaches Calm s) : Inv s :=
  h.invariant inv_initial fun _ _ _ hinv hcalm hstep => inv_step hinv hcalm hstep

/-- What a call is about to use is among what it has taken out of the counts. -/
theorem mem_credit_of_touches {b : ℕ} (hgood : op.phase.Good op.call) (h : op.touches = some b) :
    b ∈ op.phase.credit op.call := by
  obtain ⟨c, call, phase⟩ := op
  cases phase with
  | newPtr =>
    cases call with
    | load => cases h
    | store desired => exact mem_refs.mpr ⟨h, Nat.one_ne_zero⟩
    | exchange desired => exact mem_refs.mpr ⟨h, Nat.one_ne_zero⟩
    | compareExchange expected desired =>
      exact Multiset.mem_add.mpr (.inr (mem_refs.mpr ⟨h, Nat.one_ne_zero⟩))
  | push owned => exact Multiset.mem_add.mpr (.inr (mem_refs.mpr ⟨h, Nat.one_ne_zero⟩))
  | putGlobal owned => exact Multiset.mem_add.mpr (.inr (mem_refs.mpr ⟨h, by decide⟩))
  | taken old => exact Multiset.mem_add.mpr (.inr (mem_refs.mpr ⟨h, Nat.one_ne_zero⟩))
  | dropExpected old =>
    obtain ⟨⟨expected, desired, rfl⟩, -⟩ := hgood
    exact Multiset.mem_add.mpr
      (.inl (Multiset.mem_add.mpr (.inl (mem_refs.mpr ⟨h, Nat.one_ne_zero⟩))))
  | releaseNew old =>
    obtain ⟨⟨expected, desired, rfl⟩, -⟩ := hgood
    exact Multiset.mem_add.mpr (.inl (mem_refs.mpr ⟨h, by decide⟩))
  | releaseTaken old =>
    have hsome : old.base = some b := h
    have := hgood.2 (by rw [hsome]; exact Option.some_ne_none b)
    exact Multiset.mem_add.mpr (.inr (mem_refs.mpr ⟨h, by omega⟩))
  | share old =>
    have hsome : old.base = some b := h
    have := hgood.2 (by rw [hsome]; exact Option.some_ne_none b)
    exact mem_refs.mpr ⟨h, by omega⟩
  | releaseOld old =>
    have hsome : old.base = some b := h
    have := hgood.2 (by rw [hsome]; exact Option.some_ne_none b)
    have hmem : b ∈ refs old.base (externalOffset - old.localCount) := mem_refs.mpr ⟨h, by omega⟩
    obtain ⟨⟨desired, rfl | rfl⟩, -⟩ := hgood
    · exact hmem
    · exact Multiset.mem_add.mpr (.inr hmem)
  | load => cases h
  | take seen => cases h
  | putLoad owned => cases h
  | put owned seen => cases h
  | swap => cases h
  | returned result => cases h

theorem mem_sum_map {α : Type} {f : α → Multiset ℕ} {l : List α} {b : ℕ} :
    b ∈ (l.map f).sum ↔ ∃ x ∈ l, b ∈ f x := by
  induction l with
  | nil => exact ⟨fun h => absurd h (Multiset.notMem_zero b),
      fun ⟨_, hx, _⟩ => absurd hx List.not_mem_nil⟩
  | cons x l ih => rw [List.map_cons, List.sum_cons, Multiset.mem_add, ih, List.exists_mem_cons_iff]

/-- Block 6 is destroyed. Block 7 is stored and loaded; a compare-exchange, which fails once for no
reason, puts 8 in its place while another load is under way, and is about to let go of 7. -/
def someActions : List Action :=
  [.make 6, .drop 6, .make 7, .call 0 (.store (some 7)), .turn 0 false, .turn 0 false,
    .call 0 .load, .turn 1 false, .turn 1 false, .turn 0 false, .make 8,
    .call 0 (.compareExchange (some 7) (some 8)), .turn 2 false, .turn 2 false, .call 0 .load,
    .turn 3 false, .turn 2 true, .turn 2 false, .turn 3 false, .turn 2 false, .turn 3 false]

/-- Where these actions lead to. -/
def someState : System :=
  ((sharedPtrs 1).runIf Calm (sharedPtrs 1).init someActions).getD (sharedPtrs 1).init

theorem reaches_someState : (sharedPtrs 1).Reaches Calm someState := by
  have hrun : ((sharedPtrs 1).runIf Calm (sharedPtrs 1).init someActions).isSome = true := by
    decide +kernel
  obtain ⟨s, hs⟩ := Option.isSome_iff_exists.mp hrun
  have hend : someState = s := by rw [someState, hs, Option.getD_some]
  exact hend ▸ reaches_of_runIf .init hs

/-- A control block exists as long as a `shared_ptr`, a stored pointer or a call refers to it, and
no longer: a pointer that is stored keeps its block, even while all that was counted in advance for
it is in the hands of calls. -/
theorem alive_iff_of_reaches (h : (sharedPtrs cells).Reaches Calm s) (b : ℕ) :
    s.alive b = true ↔ b ∈ s.held ∨ (∃ word ∈ s.cells, word.base = some b) ∨
      ∃ op ∈ s.operations, b ∈ op.phase.credit op.call := by
  have hinv := inv_of_reaches h
  rw [hinv.alive, System.references, Multiset.mem_add, Multiset.mem_add, mem_sum_map, mem_sum_map,
    or_assoc]
  refine or_congr Iff.rfl (or_congr ⟨?_, ?_⟩ Iff.rfl)
  · rintro ⟨word, hword, hb⟩
    exact ⟨word, hword, (mem_refs.mp hb).1⟩
  · rintro ⟨word, hword, hb⟩
    obtain ⟨c, hc⟩ := List.mem_iff_getElem?.mp hword
    have hlt := hinv.localCount_lt hc hb
    exact ⟨word, hword, mem_refs.mpr ⟨hb, by omega⟩⟩

/-- A call refers to 7, a pointer to 8, and nothing to 6. -/
theorem alive_iff_of_reaches_someState :
    someState.alive 7 = true ∧ someState.alive 8 = true ∧ ¬ someState.alive 6 = true :=
  ⟨(alive_iff_of_reaches reaches_someState 7).mpr (by decide +kernel),
    (alive_iff_of_reaches reaches_someState 8).mpr (by decide +kernel),
    mt (alive_iff_of_reaches reaches_someState 6).mp (by decide +kernel)⟩

/-- No step uses the count of a block that has been destroyed, and no local count runs into the bits
beside it. -/
theorem uses_alive_of_reaches (h : (sharedPtrs cells).Reaches Calm s) :
    (∀ op ∈ s.operations, ∀ b, op.touches = some b → s.alive b = true ∧ 0 < (s.useCount b).toInt) ∧
      ∀ word ∈ s.cells, word.base ≠ none → word.localCount < externalOffset := by
  have hinv := inv_of_reaches h
  constructor
  · intro op hop b hb
    have hmem : b ∈ s.references :=
      Multiset.mem_add.mpr (.inr (mem_sum_map.mpr ⟨op, hop, mem_credit_of_touches (hinv.good op hop) hb⟩))
    refine ⟨(hinv.alive b).mpr hmem, ?_⟩
    rw [hinv.useCount]
    exact Int.natCast_pos.mpr (Multiset.count_pos.mpr hmem)
  · intro word hword hne
    obtain ⟨b, hb⟩ := Option.ne_none_iff_exists'.mp hne
    obtain ⟨c, hc⟩ := List.mem_iff_getElem?.mp hword
    exact hinv.localCount_lt hc hb

/-- The compare-exchange is about to lower the count of 7. -/
theorem uses_alive_of_reaches_someState :
    (⟨0, .compareExchange (some 7) (some 8), .releaseTaken ⟨some 7, 2⟩⟩ ∈ someState.operations ∧
      someState.alive 7 = true ∧ 0 < (someState.useCount 7).toInt) ∧
      someState.cells = [⟨some 8, 0⟩] ∧
      ∀ word ∈ someState.cells, word.base ≠ none → word.localCount < externalOffset := by
  have hmem : ⟨0, .compareExchange (some 7) (some 8), .releaseTaken ⟨some 7, 2⟩⟩ ∈
      someState.operations := by decide +kernel
  obtain ⟨huses, hlocal⟩ := uses_alive_of_reaches reaches_someState
  exact ⟨⟨hmem, huses _ hmem 7 rfl⟩, by decide +kernel, hlocal⟩

end Invariant

end Yalantinglibs.Util.AtomicSharedPtr
