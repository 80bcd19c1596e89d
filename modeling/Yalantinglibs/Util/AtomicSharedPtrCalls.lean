import Mathlib.Logic.Relation
import Mathlib.Tactic.Common
import Yalantinglibs.Util.AtomicSharedPtr

/-!
# The calls of atomic shared pointers

`util/atomic_shared_ptr.hpp`. A call takes several steps, of which one reads or writes the pointer
in earnest: `load` has its result where the local count is raised, `store` and `exchange` where the
words are exchanged, and `compare_exchange_weak` where it finds another pointer than the expected
one or writes its own. With that the pointers are atomic registers: each step is the beginning of a
call, its effect, or neither.

A `compare_exchange_weak` that has found the expected pointer may still fail, as the local count is
part of the word. It returns the pointer it has found then.

## Main definitions

* `Phase.result` — the result of a call, once it is settled
* `System.registers` — the registers that the pointers stand for

## Main results

* `registers_step` — what a step does to the registers
* `registers_of_reaches` — the registers of a run
-/

set_option autoImplicit false

namespace Yalantinglibs.Util.AtomicSharedPtr

open TransitionSystem AtomicRegister

/-- The result of a call behind `takeOwnedBase`: a comparison that has not failed is open. -/
def PtrCall.resultOfTake (owned : PackedPtr) : PtrCall → Option (Result (Option ℕ))
  | .compareExchange expected _ =>
    if owned.base = expected then none else some (.compared false owned.base)
  | _ => some (.loaded owned.base)

/-- The result of a call, once it is settled. -/
def Phase.result (call : PtrCall) : Phase → Option (Result (Option ℕ))
  | .newPtr | .load | .take _ | .swap => none
  | .push owned | .putLoad owned | .put owned _ | .putGlobal owned | .taken owned =>
    call.resultOfTake owned
  | .dropExpected old | .releaseNew old => some (.compared false old.base)
  | .releaseTaken _ =>
    match call with
    | .compareExchange expected _ => some (.compared true expected)
    | _ => none
  | .share old | .releaseOld old =>
    match call with
    | .exchange _ => some (.exchanged old.base)
    | _ => some .stored
  | .returned result => some result

/-- The registers that the pointers stand for, with the calls. -/
def System.registers (s : System) : Registers (Option ℕ) where
  cells := s.cells.map PackedPtr.base
  calls := s.operations.map fun op => ⟨op.cell, op.call, op.phase.result op.call⟩

/-- A step of a call either leaves its result and the pointer as they are, or settles the result. -/
def Settles (call : PtrCall) (before after : Option (Result (Option ℕ))) (v w : Option ℕ) : Prop :=
  (after = before ∧ w = v) ∨ (before = none ∧ ∃ r, after = some r ∧ call.TakesEffect v w r)

section Results

variable {call : PtrCall} {phase phase' : Phase} {word word' owned seen : PackedPtr}
  {e : CountEffect}
  {spurious : Bool}

theorem result_afterTake (h : call.Takes) :
    (call.afterTake owned).result call = call.resultOfTake owned := by
  obtain rfl | ⟨expected, desired, rfl⟩ := h <;> rfl

/-- The pointer that is taken is the one that is stored. -/
theorem settles_resultOfTake (h : call.Takes) (hbase : owned.base = word.base) :
    Settles call none (call.resultOfTake owned) word.base word.base := by
  obtain rfl | ⟨expected, desired, rfl⟩ := h
  · exact .inr ⟨rfl, _, rfl, hbase ▸ .load owned.base⟩
  · rw [PtrCall.resultOfTake]
    split
    · exact .inl ⟨rfl, rfl⟩
    · rename_i hne
      exact .inr ⟨rfl, _, rfl, hbase ▸ .failure expected owned.base desired hne⟩

theorem settles_takeFrom (h : call.Takes) :
    Settles call none ((call.takeFrom word).result call) word.base word.base := by
  rw [PtrCall.takeFrom]
  split
  · rw [result_afterTake h]
    exact settles_resultOfTake h rfl
  · exact .inl ⟨rfl, rfl⟩

theorem result_putFrom : (putFrom owned seen).result call = call.resultOfTake owned := by
  rw [putFrom]
  split <;> rfl

/-- One case for each place where a call may stand. -/
theorem settles_step (hgood : phase.Good call)
    (h : phase.step call word spurious = some (phase', word', e)) :
    Settles call (phase.result call) (phase'.result call) word.base word'.base := by
  cases phase with
  | newPtr =>
    cases h
    cases call <;> exact .inl ⟨rfl, rfl⟩
  | load =>
    cases h
    exact settles_takeFrom hgood
  | take seen =>
    rw [Phase.step] at h
    split_ifs at h with hmany hsame
    · cases h
      exact settles_takeFrom hgood
    · obtain ⟨rfl, -⟩ := hsame
      cases h
      -- a load takes effect here, also where it goes on to move a batch
      split
      · exact settles_resultOfTake hgood rfl
      · rw [result_afterTake hgood]
        exact settles_resultOfTake hgood rfl
    · cases h
      exact settles_takeFrom hgood
  | push owned =>
    obtain ⟨b, -, hnext⟩ := Option.map_eq_some_iff.mp h
    cases hnext
    exact .inl ⟨rfl, rfl⟩
  | putLoad owned =>
    cases h
    exact .inl ⟨result_putFrom, rfl⟩
  | put owned seen =>
    rw [Phase.step] at h
    split_ifs at h with hsame
    · obtain ⟨rfl, -⟩ := hsame
      cases h
      exact .inl ⟨result_afterTake hgood.1, rfl⟩
    · cases h
      exact .inl ⟨result_putFrom, rfl⟩
  | putGlobal owned =>
    cases h
    exact .inl ⟨result_afterTake hgood.1, rfl⟩
  | taken old =>
    obtain ⟨⟨expected, desired, rfl⟩, -⟩ := hgood
    rw [Phase.step] at h
    split_ifs at h with hne hsame
    · -- another pointer had been found
      cases h
      refine .inl ⟨?_, rfl⟩
      exact (if_neg hne).symm
    · -- the expected pointer is replaced
      obtain ⟨rfl, -⟩ := hsame
      cases h
      have hold : word.base = expected := not_not.mp hne
      refine .inr ⟨if_pos hold, _, rfl, ?_⟩
      rw [hold]
      exact .success expected desired
    · -- the word is another one, with the expected pointer or without
      cases h
      have hold : old.base = expected := not_not.mp hne
      refine .inr ⟨if_pos hold, _, rfl, ?_⟩
      rw [hold]
      exact .spurious expected word.base desired
  | dropExpected old =>
    obtain ⟨⟨expected, desired, rfl⟩, -⟩ := hgood
    cases h
    exact .inl ⟨rfl, rfl⟩
  | releaseNew old =>
    obtain ⟨⟨expected, desired, rfl⟩, -⟩ := hgood
    cases h
    exact .inl ⟨rfl, rfl⟩
  | releaseTaken old =>
    obtain ⟨⟨expected, desired, rfl⟩, -⟩ := hgood
    cases h
    exact .inl ⟨rfl, rfl⟩
  | swap =>
    -- the pointers are exchanged: what follows only releases the old one
    obtain ⟨desired, rfl | rfl⟩ := hgood
    · cases h
      exact .inr ⟨rfl, _, rfl, .store word.base desired⟩
    · cases h
      split
      · rename_i hnone
        refine .inr ⟨rfl, _, rfl, ?_⟩
        rw [hnone]
        exact .exchange none desired
      · exact .inr ⟨rfl, _, rfl, .exchange word.base desired⟩
  | share old =>
    obtain ⟨b, -, hnext⟩ := Option.map_eq_some_iff.mp h
    cases hnext
    exact .inl ⟨rfl, rfl⟩
  | releaseOld old =>
    obtain ⟨⟨desired, rfl | rfl⟩, -⟩ := hgood
    · cases h
      exact .inl ⟨rfl, rfl⟩
    · cases h
      exact .inl ⟨rfl, rfl⟩
  | returned result => cases h

end Results

section Runs

variable {cells k : ℕ} {s s' : System} {a : Action} {op : Operation}

theorem registers_apply (s : System) (e : CountEffect) (m : Multiset ℕ) :
    System.registers { s.apply e with held := m } = s.registers := by
  cases e <;> rfl

theorem set_of_getElem? {α : Type} {l : List α} {x : α} (h : l[k]? = some x) : l.set k x = l := by
  obtain ⟨hlt, rfl⟩ := List.getElem?_eq_some_iff.mp h
  exact List.set_getElem_self hlt

/-- A step of a call is its effect, or none on the registers. -/
theorem registers_turn {v w : Option ℕ} {word' : PackedPtr} {phase' : Phase} {e : CountEffect}
    {m : Multiset ℕ} (hop : s.operations[k]? = some op)
    (hcell : (s.cells.map PackedPtr.base)[op.cell]? = some v) (hword : word'.base = w)
    (h : Settles op.call (op.phase.result op.call) (phase'.result op.call) v w) :
    Relation.ReflTransGen Registers.Step s.registers (System.registers { s.apply e with
      cells := s.cells.set op.cell word'
      held := m
      operations := s.operations.set k { op with phase := phase' } }) := by
  have hregisters : System.registers { s.apply e with
      cells := s.cells.set op.cell word'
      held := m
      operations := s.operations.set k { op with phase := phase' } } =
        ⟨(s.cells.map PackedPtr.base).set op.cell w,
          s.registers.calls.set k ⟨op.cell, op.call, phase'.result op.call⟩⟩ := by
    rw [System.registers, List.map_set, List.map_set, hword]
    rfl
  have hcall : s.registers.calls[k]? = some ⟨op.cell, op.call, op.phase.result op.call⟩ := by
    rw [System.registers, List.getElem?_map, hop]
    rfl
  rw [hregisters]
  obtain ⟨hresult, rfl⟩ | ⟨hnone, r, hresult, heffect⟩ := h
  · -- nothing has changed
    rw [hresult, set_of_getElem? hcell, set_of_getElem? hcall]
    exact .refl
  · rw [hresult]
    rw [hnone] at hcall
    exact .single (.effect k op.cell op.call v w r hcall hcell heffect)

/-- A step of the system is the beginning of a call, the effect of one, or none on the registers. -/
theorem registers_step (hinv : Inv s) (h : s.step a = some s') :
    Relation.ReflTransGen Registers.Step s.registers s'.registers := by
  cases a with
  | make b =>
    rw [System.step] at h
    split_ifs at h
    cases h
    exact .refl
  | copy b =>
    rw [System.step] at h
    split_ifs at h
    cases h
    rw [registers_apply]
  | drop b =>
    rw [System.step] at h
    split_ifs at h
    cases h
    rw [registers_apply]
  | call c call =>
    rw [System.step] at h
    split_ifs at h
    cases h
    have hbegin : call.begin.result call = none := by cases call <;> rfl
    have hregisters : System.registers { s with
        held := s.held - call.inputs
        operations := s.operations ++ [⟨c, call, call.begin⟩] } =
          { s.registers with calls := s.registers.calls ++ [⟨c, call, none⟩] } := by
      rw [System.registers, List.map_append, List.map_singleton, hbegin]
      rfl
    rw [hregisters]
    exact .single (.begin c call)
  | turn k spurious =>
    obtain ⟨op, hop, hnext⟩ := Option.bind_eq_some_iff.mp h
    obtain ⟨word, hword, hnext⟩ := Option.bind_eq_some_iff.mp hnext
    obtain ⟨⟨phase', word', e⟩, hstep, rfl⟩ := Option.map_eq_some_iff.mp hnext
    have hcell : (s.cells.map PackedPtr.base)[op.cell]? = some word.base := by
      rw [List.getElem?_map, hword]
      rfl
    exact registers_turn hop hcell rfl
      (settles_step (hinv.good op (List.mem_of_getElem? hop)) hstep)

/-- The calls that have returned have the results of the registers. -/
theorem registers_of_returned {r : Result (Option ℕ)} (hop : s.operations[k]? = some op)
    (hphase : op.phase = .returned r) :
    s.registers.calls[k]? = some ⟨op.cell, op.call, some r⟩ := by
  rw [System.registers, List.getElem?_map, hop]
  change some (Pending.mk op.cell op.call (op.phase.result op.call)) = _
  rw [hphase]
  rfl

/-- A run of the pointers is a run of atomic registers. -/
theorem steps_of_reaches (h : (sharedPtrs cells).Reaches Calm s) :
    Relation.ReflTransGen Registers.Step ⟨List.replicate cells none, []⟩ s.registers := by
  induction h with
  | init =>
    have hinit : (sharedPtrs cells).init.registers = ⟨List.replicate cells none, []⟩ := by
      rw [System.registers]
      change Registers.mk ((List.replicate cells _).map _) [] = _
      rw [List.map_replicate]
      rfl
    rw [hinit]
  | step hs _ hstep ih => exact ih.trans (registers_step (inv_of_reaches hs) hstep)

/-- The pointers are atomic registers: a run of them is a run of the registers, step by step; and
each call that has returned took effect at one moment behind its beginning, in between, and has the
result of this moment. -/
theorem registers_of_reaches (h : (sharedPtrs cells).Reaches Calm s) :
    Relation.ReflTransGen Registers.Step ⟨List.replicate cells none, []⟩ s.registers ∧
      (∀ a s', s.step a = some s' →
        Relation.ReflTransGen Registers.Step s.registers s'.registers) ∧
      ∀ (k : ℕ) (op : Operation) (r : Result (Option ℕ)), s.operations[k]? = some op →
        op.phase = .returned r → s.registers.calls[k]? = some ⟨op.cell, op.call, some r⟩ ∧
          ∃ s₁ v w, Relation.ReflTransGen Registers.Step ⟨List.replicate cells none, []⟩ s₁ ∧
            s₁.calls[k]? = some ⟨op.cell, op.call, none⟩ ∧ s₁.cells[op.cell]? = some v ∧
            op.call.TakesEffect v w r ∧ Relation.ReflTransGen Registers.Step
              ⟨s₁.cells.set op.cell w, s₁.calls.set k ⟨op.cell, op.call, some r⟩⟩ s.registers := by
  have hsteps := steps_of_reaches h
  refine ⟨hsteps, fun a s' hstep => registers_step (inv_of_reaches h) hstep, ?_⟩
  intro k op r hop hphase
  have hresult := registers_of_returned hop hphase
  exact ⟨hresult, Registers.exists_effect hsteps (.inl rfl) hresult⟩

/-- The pointer is 8 from the exchange of the words on, and the load has had 7. -/
theorem registers_of_reaches_someState :
    Relation.ReflTransGen Registers.Step ⟨[none], []⟩
        ⟨[some 8], [⟨0, .store (some 7), some .stored⟩, ⟨0, .load, some (.loaded (some 7))⟩,
          ⟨0, .compareExchange (some 7) (some 8), some (.compared true (some 7))⟩,
          ⟨0, .load, none⟩]⟩ ∧
      ∃ s₁ v w, Relation.ReflTransGen Registers.Step ⟨[none], []⟩ s₁ ∧
        s₁.calls[1]? = some ⟨0, .load, none⟩ ∧ s₁.cells[0]? = some v ∧
        Call.TakesEffect .load v w (.loaded (some 7)) ∧ Relation.ReflTransGen Registers.Step
          ⟨s₁.cells.set 0 w, s₁.calls.set 1 ⟨0, .load, some (.loaded (some 7))⟩⟩
          someState.registers := by
  have hregisters : someState.registers =
      ⟨[some 8], [⟨0, .store (some 7), some .stored⟩, ⟨0, .load, some (.loaded (some 7))⟩,
        ⟨0, .compareExchange (some 7) (some 8), some (.compared true (some 7))⟩,
        ⟨0, .load, none⟩]⟩ := by decide +kernel
  obtain ⟨hsteps, -, hreturned⟩ := registers_of_reaches reaches_someState
  refine ⟨hregisters ▸ hsteps, ?_⟩
  exact (hreturned 1 ⟨0, .load, .returned (.loaded (some 7))⟩ _ (by decide +kernel) rfl).2

end Runs

end Yalantinglibs.Util.AtomicSharedPtr
