import Yalantinglibs.CoroRpc.ServerInvariant

/-!
# The server answers every request exactly once

What the invariant of a connection comes to, on every run in which the handlers that are called
with a context meet the condition `Meets`; and a run in which a handler answers through its
context and then throws, which the read loop answers a second time.

## Main definitions

* `AnswersOnce` — every request that was accepted is answered once, with its own answer

## Main results

* `answersOnce_of_reaches` — this holds in every state that is reached
-/

set_option autoImplicit false

namespace Yalantinglibs.CoroRpc.Server

open TransitionSystem

/-- Every request that was accepted is answered exactly once. -/
structure AnswersOnce (ndebug : Bool) (s : State) : Prop where
  /-- No request has two responses. -/
  once : (s.enqueued.map Frame.request).Nodup
  /-- Every request has its response, or its handler or a task of the executor has it still. -/
  owned : ∀ request, request < s.accepted.length ↔ request ∈ s.owners
  /-- With no handler at work and nothing in the queues, every request has its response. -/
  complete : s.handlers = [] → s.tasks = [] → s.writeQueue = [] →
    (s.written.map Frame.request).Perm (List.range s.accepted.length)
  /-- A response carries the `seq_num` of its request, and what the handler answered. -/
  right : ∀ f ∈ s.enqueued, Right ndebug s.accepted f
  /-- Handlers that owe an answer have a context that takes it, with their attachment. -/
  takes : ∀ h ∈ s.handlers, h.answered = false → (s.contexts h.context).status = .init ∧
    (s.contexts h.context).respAttachment = some h.attachment
  /-- Responses are written in the order they were enqueued, by one loop of `send_data`. -/
  contiguous : s.written ++ s.writeQueue = s.enqueued ∧
    s.senders = if s.writeQueue = [] then 0 else 1
  /-- `rpc_processing_cnt_` is the number of requests without a response. -/
  count : s.enqueued.length ≤ s.accepted.length ∧
    s.rpcProcessingCnt = UInt64.ofNat (s.accepted.length - s.enqueued.length)
  /-- The context that the read loop takes again for a request is held by no handler. -/
  notReset : s.loop = .readHead → s.isRpcReturnByCallback = false →
    ∀ h ∈ s.handlers, h.context ≠ s.contextInfo
  /-- No exception has ended the read loop. -/
  reads : s.loop ≠ .stopped

section Invariant

variable {ndebug : Bool} {s : State}

theorem Inv.reaches (h : (server ndebug).Reaches Meets s) : Inv ndebug [] s :=
  h.invariant inv_initial fun _ _ _ hinv hmeets hs => inv_step hinv hmeets hs

theorem Inv.nodup_owners (hinv : Inv ndebug [] s) : s.owners.Nodup :=
  hinv.owners.nodup_iff.mpr List.nodup_range

theorem Inv.enqueued_nodup (hinv : Inv ndebug [] s) :
    (s.enqueued.map Frame.request).Nodup := by
  have hnodup := hinv.nodup_owners
  rw [State.owners] at hnodup
  exact hnodup.of_append_right.of_append_right

theorem Inv.length_le (hinv : Inv ndebug [] s) : s.enqueued.length ≤ s.accepted.length := by
  have hlength := hinv.owners.length_eq
  rw [List.map_nil, List.nil_append, List.length_range] at hlength
  simp only [State.owners, List.length_append, List.length_map] at hlength
  omega

theorem Inv.rpcProcessingCnt_eq (hinv : Inv ndebug [] s) :
    s.rpcProcessingCnt = UInt64.ofNat (s.accepted.length - s.enqueued.length) := by
  have hcount := hinv.count
  have hlength : s.accepted.length =
      s.accepted.length - s.enqueued.length + s.enqueued.length :=
    (Nat.sub_add_cancel hinv.length_le).symm
  rw [hlength, UInt64.ofNat_add] at hcount
  rw [← UInt64.add_sub_cancel s.rpcProcessingCnt, hcount, UInt64.add_sub_cancel]

theorem Inv.written_perm (hinv : Inv ndebug [] s) (hhandlers : s.handlers = [])
    (htasks : s.tasks = []) (hqueue : s.writeQueue = []) :
    (s.written.map Frame.request).Perm (List.range s.accepted.length) := by
  have howners := hinv.owners
  have hwritten := hinv.queue
  rw [hqueue, List.append_nil] at hwritten
  rw [State.owners, hhandlers, htasks, ← hwritten] at howners
  exact howners

theorem Inv.notReset (hinv : Inv ndebug [] s) (hloop : s.loop = .readHead)
    (hflag : s.isRpcReturnByCallback = false) : ∀ h ∈ s.handlers, h.context ≠ s.contextInfo := by
  have hinvLoop := hinv.loop
  rw [LoopInv, hloop] at hinvLoop
  exact (hinvLoop hflag).not_mem

theorem Inv.loop_ne_stopped (hinv : Inv ndebug [] s) : s.loop ≠ .stopped := by
  intro hloop
  have hinvLoop := hinv.loop
  rwa [LoopInv, hloop] at hinvLoop

end Invariant

/-- If handlers throw only before they have answered or handed on their context, every request is
answered exactly once. -/
theorem answersOnce_of_reaches {ndebug : Bool} {s : State}
    (h : (server ndebug).Reaches Meets s) : AnswersOnce ndebug s := by
  have hinv := Inv.reaches h
  exact
    { once := hinv.enqueued_nodup
      owned := fun request => by rw [← List.mem_range]; exact hinv.owners.mem_iff.symm
      complete := hinv.written_perm
      right := fun f hf => hinv.right f (List.mem_append_right _ (List.mem_append_right _ hf))
      takes := fun g hg => (hinv.handler g hg).pending
      contiguous := ⟨hinv.queue, hinv.senders⟩
      count := ⟨hinv.length_le, hinv.rpcProcessingCnt_eq⟩
      notReset := hinv.notReset
      reads := hinv.loop_ne_stopped }

/-- A handler hands its context on, and answers when the read loop is in front of a header. -/
theorem answersOnce_delayed : ∃ s, (server false).runIf Meets initial
      [.readHead 7, .readPayload true, .construct, .capture, .finish 0 [],
        .respond 0 (.msg [1]) false, .runTask 0, .writeFront, .release 0] = some s ∧
    s.written.map Frame.request = [0] ∧ AnswersOnce false s := by
  have hrun : ((server false).runIf Meets initial
      [.readHead 7, .readPayload true, .construct, .capture, .finish 0 [],
        .respond 0 (.msg [1]) false, .runTask 0, .writeFront, .release 0]).map
          (fun s => s.written.map Frame.request) = some [0] := by decide
  obtain ⟨s, hs, hwritten⟩ := Option.map_eq_some_iff.mp hrun
  exact ⟨s, hs, hwritten, answersOnce_of_reaches (reaches_of_runIf .init hs)⟩

/-- A handler answers an error through its context and then throws: its request has two responses,
and the counter is below zero. -/
theorem not_answersOnce_throws :
    ∃ s, (server false).Reachable s ∧ ¬ AnswersOnce false s ∧
      s.enqueued.map Frame.request = [0, 0] ∧ s.rpcProcessingCnt = -1 := by
  have hrun : ((server false).runIf (fun _ _ => True) initial
      [.readHead 7, .readPayload true, .construct, .respond 0 (.error 100 []) true,
        .finish 10 [120]]).map (fun s => (s.enqueued.map Frame.request, s.rpcProcessingCnt)) =
          some ([0, 0], -1) := by decide
  obtain ⟨s, hs, hframes⟩ := Option.map_eq_some_iff.mp hrun
  obtain ⟨hframes, hcount⟩ := Prod.mk.inj hframes
  refine ⟨s, reaches_of_runIf .init hs, fun hanswers => ?_, hframes, hcount⟩
  have honce := hanswers.once
  rw [hframes] at honce
  simp at honce

end Yalantinglibs.CoroRpc.Server
