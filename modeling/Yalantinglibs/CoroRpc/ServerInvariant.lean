import Mathlib.Data.List.Perm.Basic
import Mathlib.Data.List.Nodup
import Yalantinglibs.CoroRpc.Server

/-!
# What a connection of the server keeps

Every request that was accepted is at one place: a handler owes the answer, or a task of the
executor holds it, or it was put into the write queue. This holds as long as no handler throws
after its context was answered or handed on: the read loop takes the context back then, and
answers a second time.

## Main definitions

* `Meets` — the condition on the handlers that are called with a context
* `Inv` — the invariant of a connection

## Main results

* `inv_step` — the invariant is kept
-/

set_option autoImplicit false

namespace Yalantinglibs.CoroRpc.Server

open StructPack

/-! ### The invariant -/

/-- A handler that is called with a context throws before it has answered or handed the context on,
if it throws at all; otherwise it has done one of the two when it returns. An `rpc_error` with the
code `ok` counts as a return. -/
def Meets (s : State) : Action → Prop
  | .finish code _ =>
    match s.handlerAt s.contextInfo with
    | some h =>
      match h.stage with
      | .callback captured =>
        if code = 0 then captured = true ∨ (s.contexts s.contextInfo).status ≠ .init
        else captured = false ∧ (s.contexts s.contextInfo).status = .init
      | _ => True
    | none => True
  | _ => True

instance (s : State) (a : Action) : Decidable (Meets s a) := by
  unfold Meets
  repeat' split
  all_goals infer_instance

/-- A handler that the call in the read loop still holds. -/
def Stage.IsLocal : Stage → Prop
  | .plain => True
  | .callback captured => captured = false
  | _ => False

/-- What holds of a handler at work. -/
structure HandlerInv (s : State) (h : Handler) : Prop where
  seqNum : s.accepted[h.request]? = some (s.contexts h.context).seqNum
  pending : h.answered = false → (s.contexts h.context).status = .init ∧
    (s.contexts h.context).respAttachment = some h.attachment
  answered : h.answered = true → (s.contexts h.context).status ≠ .init ∧
    ∃ captured, h.stage = .callback captured
  isLocal : h.stage.IsLocal → s.loop = .running h.request ∧ h.context = s.contextInfo

/-- A response carries the number of its request, and what the handler answered. -/
def Right (ndebug : Bool) (accepted : List UInt32) (f : Frame) : Prop :=
  ∃ seqNum, accepted[f.request]? = some seqNum ∧ f.entry = queueEntry ndebug seqNum f.answer

/-- No handler has the context of the read loop. -/
structure Idle (s : State) : Prop where
  not_mem : ∀ h ∈ s.handlers, h.context ≠ s.contextInfo
  status : (s.contexts s.contextInfo).status = .init
  respAttachment : (s.contexts s.contextInfo).respAttachment = some .empty

/-- Where the read loop stands, and what it may rely on there. -/
def LoopInv (s : State) : Prop :=
  match s.loop with
  | .readHead => s.isRpcReturnByCallback = false → Idle s
  | .readPayload seqNum =>
    s.isRpcReturnByCallback = false ∧ Idle s ∧ (s.contexts s.contextInfo).seqNum = seqNum
  | .running request => ∃ h ∈ s.handlers, h.context = s.contextInfo ∧ h.request = request ∧
    (h.stage = .plain ∧ s.isRpcReturnByCallback = false ∨
      (∃ captured, h.stage = .callback captured) ∧ s.isRpcReturnByCallback = true)
  | .stopped => False

/-- The requests, where they are. -/
def State.owners (s : State) : List ℕ :=
  (s.handlers.filter fun h => !h.answered).map Handler.request ++
    (s.tasks.map Frame.request ++ s.enqueued.map Frame.request)

/-- What holds of a connection, while some responses are in hand that were neither dispatched nor
put into the queue yet. -/
structure Inv (ndebug : Bool) (inHand : List Frame) (s : State) : Prop where
  nodup : (s.handlers.map Handler.context).Nodup
  context_lt : ∀ h ∈ s.handlers, h.context < s.fresh
  contextInfo_lt : s.contextInfo < s.fresh
  handler : ∀ h ∈ s.handlers, HandlerInv s h
  right : ∀ f ∈ inHand ++ (s.tasks ++ s.enqueued), Right ndebug s.accepted f
  owners : (inHand.map Frame.request ++ s.owners).Perm (List.range s.accepted.length)
  count : s.rpcProcessingCnt + UInt64.ofNat s.enqueued.length = UInt64.ofNat s.accepted.length
  queue : s.written ++ s.writeQueue = s.enqueued
  senders : s.senders = if s.writeQueue = [] then 0 else 1
  loop : LoopInv s

section Handlers

variable {ndebug : Bool} {fs : List Frame} {f : Frame} {s s' : State} {h h' g : Handler} {k : ℕ}

theorem handlerAt_eq_some (hk : s.handlerAt k = some h) : h ∈ s.handlers ∧ h.context = k :=
  ⟨List.mem_of_find?_eq_some hk, by simpa using List.find?_some hk⟩

/-- Contexts are not shared. -/
theorem Inv.eq_of_context (hinv : Inv ndebug fs s) (hh : h ∈ s.handlers) (hg : g ∈ s.handlers)
    (heq : h.context = g.context) : h = g :=
  List.inj_on_of_nodup_map hinv.nodup hh hg heq

theorem Inv.context_ne (hinv : Inv ndebug fs s) (hh : h ∈ s.handlers)
    (hg : g ∈ s.handlers.erase h) : g ∈ s.handlers ∧ g.context ≠ h.context := by
  have hmem := List.mem_of_mem_erase hg
  refine ⟨hmem, fun heq => ?_⟩
  rw [hinv.eq_of_context hmem hh heq] at hg
  exact (List.Nodup.of_map _ hinv.nodup).not_mem_erase hg

/-- A handler that does not go on keeps what holds of it. -/
theorem HandlerInv.congr (hg : HandlerInv s g)
    (haccepted : ∀ (i : ℕ) (x : UInt32), s.accepted[i]? = some x → s'.accepted[i]? = some x)
    (hcontext : s'.contexts g.context = s.contexts g.context)
    (hlocal : g.stage.IsLocal → s'.loop = s.loop ∧ s'.contextInfo = s.contextInfo) :
    HandlerInv s' g where
  seqNum := by
    rw [hcontext]
    exact haccepted _ _ hg.seqNum
  pending := by rw [hcontext]; exact hg.pending
  answered := by rw [hcontext]; exact hg.answered
  isLocal hl := by
    rw [(hlocal hl).1, (hlocal hl).2]
    exact hg.isLocal hl

/-- The read loop does not notice the queues. -/
theorem LoopInv.congr (hs : LoopInv s) (hloop : s'.loop = s.loop)
    (hflag : s'.isRpcReturnByCallback = s.isRpcReturnByCallback)
    (hcontextInfo : s'.contextInfo = s.contextInfo) (hcontexts : s'.contexts = s.contexts)
    (hhandlers : s'.handlers = s.handlers) : LoopInv s' := by
  have hidle : Idle s → Idle s' := by
    intro hidle
    refine ⟨?_, ?_, ?_⟩
    · rw [hhandlers, hcontextInfo]
      exact hidle.not_mem
    · rw [hcontexts, hcontextInfo]
      exact hidle.status
    · rw [hcontexts, hcontextInfo]
      exact hidle.respAttachment
  rw [LoopInv] at hs ⊢
  rw [hloop, hflag, hcontexts, hcontextInfo, hhandlers]
  split <;> rename_i heq <;> simp only [heq] at hs
  · exact fun hflag => hidle (hs hflag)
  · exact ⟨hs.1, hidle hs.2.1, hs.2.2⟩
  · exact hs

theorem Right.append {accepted : List UInt32} {f : Frame} (hf : Right ndebug accepted f)
    (more : List UInt32) : Right ndebug (accepted ++ more) f := by
  obtain ⟨seqNum, hseq, hentry⟩ := hf
  exact ⟨seqNum, List.getElem?_append_left (List.getElem?_eq_some_iff.mp hseq).1 ▸ hseq, hentry⟩

/-- The requests of the handlers, with one of them in front. -/
theorem pending_perm_cons (hh : h ∈ s.handlers) (hanswered : h.answered = false) :
    ((s.handlers.filter fun g => !g.answered).map Handler.request).Perm
      (h.request :: ((s.handlers.erase h).filter fun g => !g.answered).map Handler.request) := by
  have hperm := ((List.perm_cons_erase hh).filter fun g => !g.answered).map Handler.request
  rwa [List.filter_cons_of_pos (by simp [hanswered]), List.map_cons] at hperm

theorem pending_perm_erase (hh : h ∈ s.handlers) (hanswered : h.answered = true) :
    ((s.handlers.filter fun g => !g.answered).map Handler.request).Perm
      (((s.handlers.erase h).filter fun g => !g.answered).map Handler.request) := by
  have hperm := ((List.perm_cons_erase hh).filter fun g => !g.answered).map Handler.request
  rwa [List.filter_cons_of_neg (by simp [hanswered])] at hperm

/-- The handler that the read loop has called. -/
theorem Inv.running (hinv : Inv ndebug fs s) {request : ℕ} (hloop : s.loop = .running request)
    (hh : s.handlerAt s.contextInfo = some h) :
    h.request = request ∧ (h.stage = .plain ∧ s.isRpcReturnByCallback = false ∨
      (∃ captured, h.stage = .callback captured) ∧ s.isRpcReturnByCallback = true) := by
  have hinvLoop := hinv.loop
  rw [LoopInv, hloop] at hinvLoop
  obtain ⟨g, hg, hcontext, hrequest, hstage⟩ := hinvLoop
  obtain ⟨hmem, hk⟩ := handlerAt_eq_some hh
  obtain rfl := hinv.eq_of_context hmem hg (hk.trans hcontext.symm)
  exact ⟨hrequest, hstage⟩

/-! ### Responses in hand -/

theorem Inv.response (hinv : Inv ndebug [f] s) : Inv ndebug [] (s.response f) where
  nodup := hinv.nodup
  context_lt := hinv.context_lt
  contextInfo_lt := hinv.contextInfo_lt
  handler h hh := (hinv.handler h hh).congr (fun _ _ hx => hx) rfl fun _ => ⟨rfl, rfl⟩
  right g hg := by
    refine hinv.right g ?_
    simp only [State.response, List.nil_append, List.mem_append, List.mem_singleton] at hg ⊢
    tauto
  owners := by
    refine List.Perm.trans ?_ hinv.owners
    -- the request goes from the front to the back
    have hperm := List.perm_append_singleton f.request s.owners
    simp only [State.owners, List.append_assoc] at hperm
    simpa only [State.owners, State.response, List.map_append, List.map_nil, List.map_cons,
      List.cons_append, List.nil_append] using hperm
  count := by
    have hcount := hinv.count
    simp only [State.response, List.length_append, List.length_singleton, UInt64.ofNat_add]
    rw [UInt64.add_comm (UInt64.ofNat s.enqueued.length), ← UInt64.add_assoc,
      show UInt64.ofNat 1 = 1 from rfl, UInt64.sub_add_cancel, hcount]
  queue := by
    rw [State.response, ← List.append_assoc, hinv.queue]
  senders := by
    have hsenders := hinv.senders
    simp only [State.response, List.append_eq_nil_iff, List.cons_ne_nil, and_false, if_false]
    split_ifs at hsenders ⊢ <;> omega
  loop := hinv.loop.congr rfl rfl rfl rfl rfl

/-- A response is dispatched. -/
theorem Inv.post (hinv : Inv ndebug [f] s) : Inv ndebug [] { s with tasks := f :: s.tasks } where
  nodup := hinv.nodup
  context_lt := hinv.context_lt
  contextInfo_lt := hinv.contextInfo_lt
  handler h hh := (hinv.handler h hh).congr (fun _ _ hx => hx) rfl fun _ => ⟨rfl, rfl⟩
  right := hinv.right
  owners := by
    refine List.Perm.trans ?_ hinv.owners
    have hperm := @List.perm_middle _ f.request
      ((s.handlers.filter fun h => !h.answered).map Handler.request)
      (s.tasks.map Frame.request ++ s.enqueued.map Frame.request)
    simpa only [State.owners, List.map_cons, List.map_nil, List.nil_append, List.cons_append]
      using hperm
  count := hinv.count
  queue := hinv.queue
  senders := hinv.senders
  loop := hinv.loop.congr rfl rfl rfl rfl rfl

/-- The task of a response is taken. -/
theorem Inv.takeTask (hinv : Inv ndebug [] s) {i : ℕ} (hi : s.tasks[i]? = some f) :
    Inv ndebug [f] { s with tasks := s.tasks.eraseIdx i } where
  nodup := hinv.nodup
  context_lt := hinv.context_lt
  contextInfo_lt := hinv.contextInfo_lt
  handler h hh := (hinv.handler h hh).congr (fun _ _ hx => hx) rfl fun _ => ⟨rfl, rfl⟩
  right g hg := by
    refine hinv.right g ?_
    have hmem := List.mem_of_getElem? hi
    simp only [List.nil_append, List.mem_append, List.mem_singleton] at hg ⊢
    rcases hg with rfl | hg | hg
    · exact .inl hmem
    · exact .inl (List.mem_of_mem_eraseIdx hg)
    · exact .inr hg
  owners := by
    refine List.Perm.trans ?_ hinv.owners
    obtain ⟨hlt, hget⟩ := List.getElem?_eq_some_iff.mp hi
    have htasks : (f :: s.tasks.eraseIdx i).Perm s.tasks := by
      rw [← hget]
      exact List.getElem_cons_eraseIdx_perm hlt
    have hperm := @List.perm_middle _ f.request
      ((s.handlers.filter fun h => !h.answered).map Handler.request)
      ((s.tasks.eraseIdx i).map Frame.request ++ s.enqueued.map Frame.request)
    have htasks := (htasks.map Frame.request).append_right (s.enqueued.map Frame.request)
    simp only [State.owners, List.map_cons, List.map_nil, List.nil_append, List.cons_append]
      at hperm htasks ⊢
    exact hperm.symm.trans (htasks.append_left _)
  count := hinv.count
  queue := hinv.queue
  senders := hinv.senders
  loop := hinv.loop.congr rfl rfl rfl rfl rfl

/-! ### Handlers that go on -/

/-- The read loop does not notice that a handler goes on. -/
theorem LoopInv.setHandler (hinv : Inv ndebug fs s) (hh : h ∈ s.handlers) (h' : Handler)
    (hcontext : h'.context = h.context) (hrequest : h'.request = h.request)
    (hplain : h.stage = .plain → h'.stage = .plain)
    (hcallback : (∃ captured, h.stage = .callback captured) →
      ∃ captured, h'.stage = .callback captured) (c : ContextInfo) :
    LoopInv ((s.setHandler h h').setContext h.context c) := by
  have hloop := hinv.loop
  have hidle : Idle s → Idle ((s.setHandler h h').setContext h.context c) ∧
      ((s.setHandler h h').setContext h.context c).contexts s.contextInfo =
        s.contexts s.contextInfo := by
    intro hidle
    have hne := hidle.not_mem h hh
    have hcontexts : Function.update s.contexts h.context c s.contextInfo =
        s.contexts s.contextInfo := Function.update_of_ne (Ne.symm hne) _ _
    refine ⟨⟨fun g hg => ?_, ?_, ?_⟩, hcontexts⟩
    · rcases List.mem_cons.mp hg with rfl | hg
      · rwa [hcontext]
      · exact hidle.not_mem g (List.mem_of_mem_erase hg)
    · exact (congrArg ContextInfo.status hcontexts).trans hidle.status
    · exact (congrArg ContextInfo.respAttachment hcontexts).trans hidle.respAttachment
  rw [LoopInv] at hloop ⊢
  simp only [State.setContext, State.setHandler] at hidle ⊢
  split <;> rename_i heq <;> simp only [heq] at hloop
  · exact fun hflag => (hidle (hloop hflag)).1
  · exact ⟨hloop.1, (hidle hloop.2.1).1, by rw [(hidle hloop.2.1).2]; exact hloop.2.2⟩
  · obtain ⟨g, hg, hk, hr, hstage⟩ := hloop
    by_cases hgh : g = h
    · subst hgh
      refine ⟨h', List.mem_cons_self, hcontext.trans hk, hrequest.trans hr, ?_⟩
      rcases hstage with ⟨hp, hflag⟩ | ⟨hc, hflag⟩
      · exact .inl ⟨hplain hp, hflag⟩
      · exact .inr ⟨hcallback hc, hflag⟩
    · exact ⟨g, List.mem_cons_of_mem _ ((List.mem_erase_of_ne hgh).mpr hg), hk, hr, hstage⟩

/-- A handler goes on, and its context with it. What is in hand then is what it has answered. -/
theorem Inv.setHandler (hinv : Inv ndebug [] s) (hh : h ∈ s.handlers) (h' : Handler)
    (c : ContextInfo) (flag : Bool) (hcontext : h'.context = h.context)
    (hrequest : h'.request = h.request)
    (hh' : HandlerInv { (s.setHandler h h').setContext h.context c with
      isRpcReturnByCallback := flag } h')
    (hanswered : h'.answered = h.answered ∧ fs = [] ∨
      h.answered = false ∧ h'.answered = true ∧ ∃ f, fs = [f] ∧ f.request = h.request ∧
        Right ndebug s.accepted f)
    (hloop : LoopInv { (s.setHandler h h').setContext h.context c with
      isRpcReturnByCallback := flag }) :
    Inv ndebug fs { (s.setHandler h h').setContext h.context c with
      isRpcReturnByCallback := flag } where
  nodup := by
    have hperm := (List.perm_cons_erase hh).map Handler.context
    rw [List.map_cons, ← hcontext] at hperm
    exact hperm.nodup_iff.mp hinv.nodup
  context_lt g hg := by
    rcases List.mem_cons.mp hg with rfl | hg
    · exact hcontext ▸ hinv.context_lt h hh
    · exact hinv.context_lt g (List.mem_of_mem_erase hg)
  contextInfo_lt := hinv.contextInfo_lt
  handler g hg := by
    rcases List.mem_cons.mp hg with rfl | hg
    · exact hh'
    · obtain ⟨hmem, hne⟩ := hinv.context_ne hh hg
      exact (hinv.handler g hmem).congr (fun _ _ hx => hx) (Function.update_of_ne hne _ _)
        fun _ => ⟨rfl, rfl⟩
  right g hg := by
    rcases List.mem_append.mp hg with hg | hg
    · rcases hanswered with ⟨-, rfl⟩ | ⟨-, -, f, rfl, -, hf⟩
      · simp at hg
      · rwa [List.mem_singleton.mp hg]
    · exact hinv.right g hg
  owners := by
    refine List.Perm.trans ?_ hinv.owners
    have hfilter : ((h' :: s.handlers.erase h).filter fun g => !g.answered) =
        if h'.answered then (s.handlers.erase h).filter fun g => !g.answered
        else h' :: (s.handlers.erase h).filter fun g => !g.answered := by
      rw [List.filter_cons]
      cases h'.answered <;> rfl
    simp only [State.owners, State.setContext, State.setHandler, hfilter, List.map_nil,
      List.nil_append]
    rw [← List.append_assoc]
    refine List.Perm.append_right _ ?_
    rcases hanswered with ⟨hans, rfl⟩ | ⟨hans, hans', f, rfl, hf, -⟩
    · cases hanswered : h.answered with
      | false =>
        rw [hans, hanswered, if_neg Bool.false_ne_true, List.map_cons, hrequest]
        exact (pending_perm_cons hh hanswered).symm
      | true =>
        rw [hans, hanswered, if_pos rfl]
        exact (pending_perm_erase hh hanswered).symm
    · rw [hans', if_pos rfl, List.map_cons, List.map_nil, hf]
      exact (pending_perm_cons hh hans).symm
  count := hinv.count
  queue := hinv.queue
  senders := hinv.senders
  loop := hloop

/-- A handler is over, or lets go of its context. -/
theorem Inv.dropHandler (hinv : Inv ndebug [] s) (hh : h ∈ s.handlers) (c : ContextInfo)
    (flag : Bool) (l : Loop) (hlocal : l = s.loop ∨ h.context = s.contextInfo)
    (hanswered : h.answered = true ∧ fs = [] ∨ h.answered = false ∧ ∃ f, fs = [f] ∧
      f.request = h.request ∧ Right ndebug s.accepted f)
    (hloop : LoopInv { (s.dropHandler h).setContext h.context c with
      isRpcReturnByCallback := flag, loop := l }) :
    Inv ndebug fs { (s.dropHandler h).setContext h.context c with
      isRpcReturnByCallback := flag, loop := l } where
  nodup := hinv.nodup.sublist (List.erase_sublist.map _)
  context_lt g hg := hinv.context_lt g (List.mem_of_mem_erase hg)
  contextInfo_lt := hinv.contextInfo_lt
  handler g hg := by
    obtain ⟨hmem, hne⟩ := hinv.context_ne hh hg
    refine (hinv.handler g hmem).congr (fun _ _ hx => hx) (Function.update_of_ne hne _ _)
      fun hl => ⟨?_, rfl⟩
    rcases hlocal with hlocal | hlocal
    · exact hlocal
    · -- no other handler is in the read loop
      exact absurd (((hinv.handler g hmem).isLocal hl).2.trans hlocal.symm) hne
  right g hg := by
    rcases List.mem_append.mp hg with hg | hg
    · rcases hanswered with ⟨-, rfl⟩ | ⟨-, f, rfl, -, hf⟩
      · simp at hg
      · rwa [List.mem_singleton.mp hg]
    · exact hinv.right g hg
  owners := by
    refine List.Perm.trans ?_ hinv.owners
    simp only [State.owners, State.setContext, State.dropHandler, List.map_nil, List.nil_append]
    rw [← List.append_assoc]
    refine List.Perm.append_right _ ?_
    rcases hanswered with ⟨hans, rfl⟩ | ⟨hans, f, rfl, hf, -⟩
    · exact (pending_perm_erase hh hans).symm
    · rw [List.map_cons, List.map_nil, hf]
      exact (pending_perm_cons hh hans).symm
  count := hinv.count
  queue := hinv.queue
  senders := hinv.senders
  loop := hloop

/-- A handler outside of the read loop can let go of its context unnoticed. -/
theorem LoopInv.dropHandler (hinv : Inv ndebug fs s) (hrunning : ∀ request,
    s.loop = .running request → h.context ≠ s.contextInfo) : LoopInv (s.dropHandler h) := by
  have hloop := hinv.loop
  have hidle : Idle s → Idle (s.dropHandler h) := fun hidle =>
    ⟨fun g hg => hidle.not_mem g (List.mem_of_mem_erase hg), hidle.status, hidle.respAttachment⟩
  rw [LoopInv] at hloop ⊢
  simp only [State.dropHandler] at hidle ⊢
  split <;> rename_i heq <;> simp only [heq] at hloop
  · exact fun hflag => hidle (hloop hflag)
  · exact ⟨hloop.1, hidle hloop.2.1, hloop.2.2⟩
  · obtain ⟨g, hg, hk, hr, hstage⟩ := hloop
    refine ⟨g, (List.mem_erase_of_ne ?_).mpr hg, hk, hr, hstage⟩
    rintro rfl
    exact hrunning _ heq hk

theorem setContext_self (s : State) (k : ℕ) : s.setContext k (s.contexts k) = s := by
  rw [State.setContext, Function.update_eq_self]

/-- The response made from the context of a handler that owes it is right. -/
theorem Inv.directFrame (hinv : Inv ndebug fs s) (hh : h ∈ s.handlers)
    (hanswered : h.answered = false) (code : UInt16) (buf : Bytes) :
    ∃ f, s.directFrame ndebug h.request h.context h.attachment code buf = some f ∧
      f.request = h.request ∧ Right ndebug s.accepted f := by
  have hhandler := hinv.handler h hh
  have hattachment := (hhandler.pending hanswered).2
  rw [State.directFrame, hattachment, Option.map_some]
  exact ⟨_, rfl, rfl, _, hhandler.seqNum, rfl⟩

end Handlers

/-! ### Steps -/

section Steps

variable {ndebug : Bool} {s s' : State} {k : ℕ}

theorem inv_initial : Inv ndebug [] initial where
  nodup := List.nodup_nil
  context_lt := by simp [initial]
  contextInfo_lt := Nat.zero_lt_one
  handler := by simp [initial]
  right := by simp [initial]
  owners := List.Perm.refl _
  count := by decide
  queue := rfl
  senders := rfl
  loop _ := ⟨by simp [initial], rfl, rfl⟩

/-- In front of a header no call of a handler is going on. -/
theorem Inv.not_isLocal (hinv : Inv ndebug [] s) (hloop : ∀ request, s.loop ≠ .running request)
    {h : Handler} (hh : h ∈ s.handlers) : ¬ h.stage.IsLocal :=
  fun hl => hloop _ ((hinv.handler h hh).isLocal hl).1

theorem inv_readHead (hinv : Inv ndebug [] s) {seqNum : UInt32}
    (hs : readHead s seqNum = some s') : Inv ndebug [] s' := by
  have hinvLoop := hinv.loop
  rw [LoopInv] at hinvLoop
  cases hloop : s.loop with
  | readHead =>
    have hlocal : ∀ h ∈ s.handlers, ¬ h.stage.IsLocal :=
      fun h hh => hinv.not_isLocal (by simp [hloop]) hh
    rw [readHead] at hs
    simp only [hloop] at hs hinvLoop
    cases hflag : s.isRpcReturnByCallback with
    | true =>
      rw [hflag, if_pos rfl] at hs
      obtain rfl := Option.some.inj hs
      -- the address is free
      have hne : ∀ h ∈ s.handlers, h.context ≠ s.fresh := fun h hh => (hinv.context_lt h hh).ne
      have hself : Function.update s.contexts s.fresh (newContext seqNum) s.fresh =
          newContext seqNum := Function.update_self _ _ _
      exact
        { nodup := hinv.nodup
          context_lt := fun h hh => Nat.lt_succ_of_lt (hinv.context_lt h hh)
          contextInfo_lt := Nat.lt_succ_self _
          handler := fun h hh => (hinv.handler h hh).congr (fun _ _ hx => hx)
            (Function.update_of_ne (hne h hh) _ _) fun hl => absurd hl (hlocal h hh)
          right := hinv.right
          owners := hinv.owners
          count := hinv.count
          queue := hinv.queue
          senders := hinv.senders
          loop := ⟨rfl, ⟨hne, congrArg ContextInfo.status hself,
            congrArg ContextInfo.respAttachment hself⟩, congrArg ContextInfo.seqNum hself⟩ }
    | false =>
      rw [hflag, if_neg Bool.false_ne_true] at hs
      obtain rfl := Option.some.inj hs
      have hidle := hinvLoop hflag
      have hself : Function.update s.contexts s.contextInfo
          { s.contexts s.contextInfo with seqNum } s.contextInfo =
            { s.contexts s.contextInfo with seqNum } := Function.update_self _ _ _
      exact
        { nodup := hinv.nodup
          context_lt := hinv.context_lt
          contextInfo_lt := hinv.contextInfo_lt
          handler := fun h hh => (hinv.handler h hh).congr (fun _ _ hx => hx)
            (Function.update_of_ne (hidle.not_mem h hh) _ _) fun hl => absurd hl (hlocal h hh)
          right := hinv.right
          owners := hinv.owners
          count := hinv.count
          queue := hinv.queue
          senders := hinv.senders
          loop := ⟨hflag, ⟨hidle.not_mem, (congrArg ContextInfo.status hself).trans hidle.status,
            (congrArg ContextInfo.respAttachment hself).trans hidle.respAttachment⟩,
            congrArg ContextInfo.seqNum hself⟩ }
  | _ => simp [readHead, hloop] at hs

/-- A request is accepted: its handler has the context of the read loop. -/
theorem Inv.accept (hinv : Inv ndebug [] s) {seqNum : UInt32}
    (hloop : s.loop = .readPayload seqNum) {stage : Stage} {flag : Bool} {l : Loop}
    (hlocal : stage.IsLocal → l = .running s.accepted.length)
    (hl : LoopInv { s with
      accepted := s.accepted ++ [seqNum]
      rpcProcessingCnt := s.rpcProcessingCnt + 1
      handlers := ⟨s.accepted.length, s.contextInfo, .empty, false, stage⟩ :: s.handlers
      isRpcReturnByCallback := flag
      loop := l }) :
    Inv ndebug [] { s with
      accepted := s.accepted ++ [seqNum]
      rpcProcessingCnt := s.rpcProcessingCnt + 1
      handlers := ⟨s.accepted.length, s.contextInfo, .empty, false, stage⟩ :: s.handlers
      isRpcReturnByCallback := flag
      loop := l } := by
  have hinvLoop := hinv.loop
  rw [LoopInv, hloop] at hinvLoop
  obtain ⟨-, hidle, hseq⟩ := hinvLoop
  have hget : ∀ (i : ℕ) (x : UInt32), s.accepted[i]? = some x →
      (s.accepted ++ [seqNum])[i]? = some x :=
    fun i x hx => List.getElem?_append_left (List.getElem?_eq_some_iff.mp hx).1 ▸ hx
  exact
    { nodup := by
        refine List.nodup_cons.mpr ⟨fun hmem => ?_, hinv.nodup⟩
        obtain ⟨g, hg, hk⟩ := List.mem_map.mp hmem
        exact hidle.not_mem g hg hk
      context_lt := by
        intro g hg
        rcases List.mem_cons.mp hg with rfl | hg
        · exact hinv.contextInfo_lt
        · exact hinv.context_lt g hg
      contextInfo_lt := hinv.contextInfo_lt
      handler := by
        intro g hg
        rcases List.mem_cons.mp hg with rfl | hg
        · exact
            { seqNum := by simpa using hseq.symm
              pending := fun _ => ⟨hidle.status, hidle.respAttachment⟩
              answered := fun hans => absurd hans Bool.false_ne_true
              isLocal := fun hstage => ⟨hlocal hstage, rfl⟩ }
        · -- no other call of a handler is going on
          exact (hinv.handler g hg).congr hget rfl
            fun hstage => absurd hstage (hinv.not_isLocal (by simp [hloop]) hg)
      right := fun g hg => (hinv.right g hg).append [seqNum]
      owners := by
        rw [List.length_append, List.length_singleton, List.range_succ]
        refine (List.Perm.cons _ hinv.owners).trans ?_
        exact (List.perm_append_singleton _ _).symm
      count := by
        rw [List.length_append, List.length_singleton, UInt64.ofNat_add, ← hinv.count,
          UInt64.add_assoc, UInt64.add_assoc, UInt64.add_comm 1]
        rfl
      queue := hinv.queue
      senders := hinv.senders
      loop := hl }

theorem inv_readPayload (hinv : Inv ndebug [] s) {plain : Bool}
    (hs : readPayload s plain = some s') : Inv ndebug [] s' := by
  have hinvLoop := hinv.loop
  rw [LoopInv] at hinvLoop
  cases hloop : s.loop with
  | readPayload seqNum =>
    rw [readPayload] at hs
    simp only [hloop] at hs hinvLoop
    cases plain with
    | true =>
      rw [if_pos rfl] at hs
      obtain rfl := Option.some.inj hs
      exact hinv.accept hloop (fun _ => rfl)
        ⟨_, List.mem_cons_self, rfl, rfl, .inl ⟨rfl, hinvLoop.1⟩⟩
    | false =>
      rw [if_neg Bool.false_ne_true] at hs
      obtain rfl := Option.some.inj hs
      exact hinv.accept hloop (fun hstage => hstage.elim)
        fun hflag => absurd hflag.symm Bool.false_ne_true
  | _ => simp [readPayload, hloop] at hs

/-- A handler goes to another stage; its context stays. -/
theorem Inv.setStage (hinv : Inv ndebug [] s) {h : Handler} (hh : h ∈ s.handlers) {stage : Stage}
    {flag : Bool} (hanswered : h.answered = true → ∃ captured, stage = .callback captured)
    (hlocal : stage.IsLocal → h.stage.IsLocal)
    (hl : LoopInv { s.setHandler h { h with stage } with isRpcReturnByCallback := flag }) :
    Inv ndebug [] { s.setHandler h { h with stage } with isRpcReturnByCallback := flag } := by
  have hhandler := hinv.handler h hh
  have hself := setContext_self (s.setHandler h { h with stage }) h.context
  have hstep := @Inv.setHandler ndebug [] s h hinv hh { h with stage }
    ((s.setHandler h { h with stage }).contexts h.context) flag rfl rfl
  rw [hself] at hstep
  refine hstep ?_ (.inl ⟨rfl, rfl⟩) hl
  exact
    { seqNum := hhandler.seqNum
      pending := hhandler.pending
      answered := fun hans => ⟨(hhandler.answered hans).1, hanswered hans⟩
      isLocal := fun hstage => hhandler.isLocal (hlocal hstage) }

/-- The call of a handler with a context goes on. -/
theorem loopInv_running {request : ℕ} (hloop : s.loop = .running request) {h : Handler}
    (hh : h ∈ s.handlers) (hcontext : h.context = s.contextInfo) (hrequest : h.request = request)
    (hstage : ∃ captured, h.stage = .callback captured) (hflag : s.isRpcReturnByCallback = true) :
    LoopInv s := by
  rw [LoopInv, hloop]
  exact ⟨h, hh, hcontext, hrequest, .inr ⟨hstage, hflag⟩⟩

/-- Only handlers with a context answer by themselves. -/
theorem Inv.answered_eq_false (hinv : Inv ndebug [] s) {h : Handler} (hh : h ∈ s.handlers)
    (hstage : ∀ captured, h.stage ≠ .callback captured) : h.answered = false := by
  refine Bool.eq_false_iff.mpr fun hans => ?_
  obtain ⟨-, captured, hcaptured⟩ := (hinv.handler h hh).answered hans
  exact hstage captured hcaptured

theorem inv_construct (hinv : Inv ndebug [] s) (hs : construct s = some s') :
    Inv ndebug [] s' := by
  rw [construct] at hs
  split at hs
  case h_1 request h hloop hk =>
    obtain ⟨hstage, hs⟩ := Option.ite_none_right_eq_some.mp hs
    obtain rfl := Option.some.inj hs
    obtain ⟨hh, hcontext⟩ := handlerAt_eq_some hk
    refine hinv.setStage hh (fun _ => ⟨_, rfl⟩) (fun _ => hstage ▸ trivial) ?_
    exact loopInv_running hloop List.mem_cons_self hcontext (hinv.running hloop hk).1 ⟨_, rfl⟩ rfl
  case h_2 => cases hs

theorem inv_capture (hinv : Inv ndebug [] s) (hs : capture s = some s') : Inv ndebug [] s' := by
  rw [capture] at hs
  split at hs
  case h_1 request h hloop hk =>
    obtain ⟨hstage, hs⟩ := Option.ite_none_right_eq_some.mp hs
    obtain rfl := Option.some.inj hs
    obtain ⟨hh, hcontext⟩ := handlerAt_eq_some hk
    obtain ⟨hrequest, hflag⟩ := hinv.running hloop hk
    have hflag : s.isRpcReturnByCallback = true := by
      rcases hflag with ⟨hplain, -⟩ | ⟨-, hflag⟩
      · rw [hstage] at hplain
        cases hplain
      · exact hflag
    refine hinv.setStage hh (fun _ => ⟨_, rfl⟩) (fun hlocal => ?_) ?_
    · cases hlocal
    · exact loopInv_running hloop List.mem_cons_self hcontext hrequest ⟨_, rfl⟩ hflag
  case h_2 => cases hs

theorem inv_finishCoroutine (hinv : Inv ndebug [] s) {code : UInt16} {buf : Bytes}
    (hs : finishCoroutine s k code buf = some s') : Inv ndebug [] s' := by
  obtain ⟨h, hk, hs⟩ := Option.bind_eq_some_iff.mp hs
  obtain ⟨hstage, hs⟩ := Option.ite_none_right_eq_some.mp hs
  obtain rfl := Option.some.inj hs
  obtain ⟨hh, hcontext⟩ := handlerAt_eq_some hk
  have hanswered := hinv.answered_eq_false hh (by simp [hstage])
  refine hinv.setStage hh (fun hans => absurd (hanswered.symm.trans hans) Bool.false_ne_true)
    (fun hlocal => hlocal.elim) ?_
  have hl := LoopInv.setHandler hinv hh { h with stage := .finished code buf } rfl rfl
    (by simp [hstage]) (by simp [hstage]) (s.contexts h.context)
  have hself := setContext_self (s.setHandler h { h with stage := .finished code buf }) h.context
  exact hself ▸ hl

theorem inv_setAttachment (hinv : Inv ndebug [] s) {attachment : RespAttachment}
    (hs : setAttachment s k attachment = some s') : Inv ndebug [] s' := by
  obtain ⟨h, hk, hs⟩ := Option.bind_eq_some_iff.mp hs
  obtain ⟨hh, rfl⟩ := handlerAt_eq_some hk
  have hhandler := hinv.handler h hh
  split at hs
  · cases hs
  · obtain rfl := Option.some.inj hs
    have hself : Function.update s.contexts h.context
        { s.contexts h.context with respAttachment := some attachment } h.context =
          { s.contexts h.context with respAttachment := some attachment } :=
      Function.update_self _ _ _
    refine hinv.setHandler hh { h with attachment } _ _ rfl rfl ?_ (.inl ⟨rfl, rfl⟩)
      (LoopInv.setHandler hinv hh { h with attachment } rfl rfl id id _)
    exact
      { seqNum := hhandler.seqNum.trans (congrArg some (congrArg ContextInfo.seqNum hself).symm)
        pending := fun hans => ⟨(congrArg ContextInfo.status hself).trans (hhandler.pending hans).1,
          congrArg ContextInfo.respAttachment hself⟩
        answered := fun hans => ⟨fun hstatus => (hhandler.answered hans).1
          ((congrArg ContextInfo.status hself).symm.trans hstatus), (hhandler.answered hans).2⟩
        isLocal := hhandler.isLocal }

theorem inv_runTask (hinv : Inv ndebug [] s) {i : ℕ} (hs : runTask s i = some s') :
    Inv ndebug [] s' := by
  obtain ⟨f, hf, rfl⟩ := Option.map_eq_some_iff.mp hs
  exact (hinv.takeTask hf).response

theorem inv_writeFront (hinv : Inv ndebug [] s) (hs : writeFront s = some s') :
    Inv ndebug [] s' := by
  have hsenders := hinv.senders
  have hqueue := hinv.queue
  rw [writeFront] at hs
  split at hs
  case h_1 n f writeQueue hn hf =>
    obtain rfl := Option.some.inj hs
    rw [hf] at hqueue
    rw [hn, hf, if_neg (List.cons_ne_nil _ _)] at hsenders
    obtain rfl := Nat.succ.inj hsenders
    exact
      { nodup := hinv.nodup
        context_lt := hinv.context_lt
        contextInfo_lt := hinv.contextInfo_lt
        handler := fun h hh => (hinv.handler h hh).congr (fun _ _ hx => hx) rfl fun _ => ⟨rfl, rfl⟩
        right := hinv.right
        owners := hinv.owners
        count := hinv.count
        queue := by rw [← hqueue, List.append_assoc, List.singleton_append]
        senders := rfl
        loop := hinv.loop.congr rfl rfl rfl rfl rfl }
  case h_2 => cases hs

theorem inv_release (hinv : Inv ndebug [] s) (hs : release s k = some s') : Inv ndebug [] s' := by
  obtain ⟨h, hk, hs⟩ := Option.bind_eq_some_iff.mp hs
  obtain ⟨⟨hstage, hstatus, hrunning⟩, hs⟩ := Option.ite_none_right_eq_some.mp hs
  obtain rfl := Option.some.inj hs
  obtain ⟨hh, rfl⟩ := handlerAt_eq_some hk
  -- the status says that it has answered
  have hanswered : h.answered = true := by
    refine Bool.not_eq_false _ ▸ fun hans => hstatus ((hinv.handler h hh).pending hans).1
  have hself := setContext_self (s.dropHandler h) h.context
  have hloop : LoopInv (s.dropHandler h) := by
    refine LoopInv.dropHandler hinv fun request hloop hcontext => hrunning ⟨?_, hcontext⟩
    rw [hcontext] at hk
    rw [hloop, (hinv.running hloop hk).1]
  have hstep := @Inv.dropHandler ndebug [] s h hinv hh ((s.dropHandler h).contexts h.context)
    (s.dropHandler h).isRpcReturnByCallback (s.dropHandler h).loop (.inl rfl)
    (.inl ⟨hanswered, rfl⟩)
  rw [hself] at hstep
  exact hstep hloop

/-- An answer is right, and the context is not `init` behind it. -/
theorem makeReply_eq_some {h : Handler} {c c' : ContextInfo} {reply : Reply} {f : Frame}
    (hc : c.respAttachment = some h.attachment)
    (hf : makeReply ndebug h c reply = some (f, c')) :
    c'.seqNum = c.seqNum ∧ c'.status ≠ .init ∧ f.request = h.request ∧
      f.entry = queueEntry ndebug c.seqNum f.answer := by
  cases reply with
  | msg body =>
    rw [makeReply, hc, Option.map_some] at hf
    cases hf
    exact ⟨rfl, nofun, rfl, rfl⟩
  | error ec errorMsg =>
    cases hf
    exact ⟨rfl, nofun, rfl, rfl⟩

theorem inv_respond (hinv : Inv ndebug [] s) {reply : Reply} {onExecutor : Bool}
    (hs : respond ndebug s k reply onExecutor = some s') : Inv ndebug [] s' := by
  obtain ⟨h, hk, hs⟩ := Option.bind_eq_some_iff.mp hs
  obtain ⟨hh, rfl⟩ := handlerAt_eq_some hk
  have hhandler := hinv.handler h hh
  split at hs
  case h_1 captured hstage =>
    by_cases hstatus : (s.contexts h.context).status ≠ .init
    · rw [if_pos hstatus] at hs
      obtain rfl := Option.some.inj hs
      exact hinv
    · rw [if_neg hstatus] at hs
      obtain ⟨⟨f, c⟩, hf, hs⟩ := Option.map_eq_some_iff.mp hs
      have hanswered : h.answered = false := by
        refine Bool.eq_false_iff.mpr fun hans => hstatus (hhandler.answered hans).1
      obtain ⟨hseq, hinit, hrequest, hentry⟩ :=
        makeReply_eq_some (hhandler.pending hanswered).2 hf
      have hself : Function.update s.contexts h.context c h.context = c :=
        Function.update_self _ _ _
      have hstep : Inv ndebug [f]
          ((s.setHandler h { h with answered := true }).setContext h.context c) := by
        refine hinv.setHandler hh { h with answered := true } c s.isRpcReturnByCallback rfl rfl ?_
          (.inr ⟨hanswered, rfl, f, rfl, hrequest, ?_⟩)
          (LoopInv.setHandler hinv hh { h with answered := true } rfl rfl id id c)
        · exact
            { seqNum := hhandler.seqNum.trans
                (congrArg some (hseq.symm.trans (congrArg ContextInfo.seqNum hself).symm))
              pending := fun hans => absurd hans.symm Bool.false_ne_true
              answered := fun _ => ⟨fun hc => hinit
                ((congrArg ContextInfo.status hself).symm.trans hc), captured, hstage⟩
              isLocal := hhandler.isLocal }
        · exact ⟨_, hrequest ▸ hhandler.seqNum, hentry⟩
      cases onExecutor with
      | true =>
        obtain rfl := hs
        exact hstep.response
      | false =>
        obtain rfl := hs
        exact hstep.post
  case h_2 => cases hs

theorem inv_runFinished (hinv : Inv ndebug [] s) (hs : runFinished ndebug s k = some s') :
    Inv ndebug [] s' := by
  obtain ⟨h, hk, hs⟩ := Option.bind_eq_some_iff.mp hs
  obtain ⟨hh, rfl⟩ := handlerAt_eq_some hk
  split at hs
  case h_1 code buf hstage =>
    have hanswered := hinv.answered_eq_false hh (by simp [hstage])
    obtain ⟨f, hf, hrequest, hright⟩ := hinv.directFrame hh hanswered code buf
    rw [hf, Option.map_some] at hs
    obtain rfl := Option.some.inj hs
    have hself := setContext_self (s.dropHandler h) h.context
    have hloop : LoopInv (s.dropHandler h) := by
      refine LoopInv.dropHandler hinv fun request hloop hcontext => ?_
      -- the handler in the read loop is no coroutine
      rw [hcontext] at hk
      rcases (hinv.running hloop hk).2 with ⟨hplain, -⟩ | ⟨⟨captured, hcaptured⟩, -⟩
      · simp [hstage] at hplain
      · simp [hstage] at hcaptured
    have hstep := @Inv.dropHandler ndebug [f] s h hinv hh ((s.dropHandler h).contexts h.context)
      (s.dropHandler h).isRpcReturnByCallback (s.dropHandler h).loop (.inl rfl)
      (.inr ⟨hanswered, f, rfl, hrequest, hright⟩)
    rw [hself] at hstep
    exact (hstep hloop).response
  case h_2 => cases hs

/-- The read loop goes on in front of a header, and no handler has its context. -/
theorem Inv.directResponse (hinv : Inv ndebug [] s) {h : Handler} (hh : h ∈ s.handlers)
    (hcontext : h.context = s.contextInfo) (hanswered : h.answered = false) (code : UInt16)
    (buf : Bytes) :
    ∃ f, s.directFrame ndebug h.request s.contextInfo h.attachment code buf = some f ∧
      Inv ndebug [] ({ (s.dropHandler h).setContext s.contextInfo
          { s.contexts s.contextInfo with respAttachment := some .empty } with
        isRpcReturnByCallback := false
        loop := .readHead }.response f) := by
  obtain ⟨f, hf, hrequest, hright⟩ := hinv.directFrame hh hanswered code buf
  have hstatus := ((hinv.handler h hh).pending hanswered).1
  rw [hcontext] at hf hstatus
  refine ⟨f, hf, Inv.response ?_⟩
  have hself : Function.update s.contexts s.contextInfo
      { s.contexts s.contextInfo with respAttachment := some .empty } s.contextInfo =
        { s.contexts s.contextInfo with respAttachment := some .empty } :=
          Function.update_self _ _ _
  have hstep := @Inv.dropHandler ndebug [f] s h hinv hh
    { s.contexts s.contextInfo with respAttachment := some .empty } false .readHead
    (.inr hcontext) (.inr ⟨hanswered, f, rfl, hrequest, hright⟩)
  rw [hcontext] at hstep
  refine hstep fun _ => ⟨fun g hg => ?_, ?_, congrArg ContextInfo.respAttachment hself⟩
  · exact hcontext ▸ (hinv.context_ne hh hg).2
  · exact (congrArg ContextInfo.status hself).trans hstatus

/-- The read loop goes on, and leaves its context to the handler. -/
theorem Inv.handedOn (hinv : Inv ndebug [] s) {h : Handler} (hh : h ∈ s.handlers)
    (hcontext : h.context = s.contextInfo) (hstage : h.stage = .callback true)
    (hflag : s.isRpcReturnByCallback = true) : Inv ndebug [] { s with loop := .readHead } where
  nodup := hinv.nodup
  context_lt := hinv.context_lt
  contextInfo_lt := hinv.contextInfo_lt
  handler g hg := by
    refine (hinv.handler g hg).congr (fun _ _ hx => hx) rfl fun hl => ?_
    -- no other handler is in the read loop
    obtain rfl := hinv.eq_of_context hg hh
      (((hinv.handler g hg).isLocal hl).2.trans hcontext.symm)
    rw [hstage] at hl
    cases hl
  right := hinv.right
  owners := hinv.owners
  count := hinv.count
  queue := hinv.queue
  senders := hinv.senders
  loop hfalse := absurd (hflag.symm.trans hfalse) Bool.false_ne_true.symm

theorem inv_finish (hinv : Inv ndebug [] s) {code : UInt16} {buf : Bytes}
    (hmeets : Meets s (.finish code buf)) (hs : finish ndebug s code buf = some s') :
    Inv ndebug [] s' := by
  rw [finish] at hs
  split at hs
  case h_1 request h hloop hk =>
    obtain ⟨hh, hcontext⟩ := handlerAt_eq_some hk
    obtain ⟨rfl, hstage⟩ := hinv.running hloop hk
    -- the cases with a response
    have hdirect : h.answered = false → h.stage ≠ .callback true →
        ¬ (s.isRpcReturnByCallback = true ∧ code = 0) → Inv ndebug [] s' := by
      intro hanswered hcaptured hcode
      obtain ⟨f, hf, hinv'⟩ := hinv.directResponse hh hcontext hanswered code buf
      simp only [if_neg hcaptured, if_neg hcode, hf, Option.some.injEq] at hs
      exact hs ▸ hinv'
    rcases hstage with ⟨hplain, hflag⟩ | ⟨⟨captured, hcallback⟩, hflag⟩
    · have hanswered := hinv.answered_eq_false hh (by simp [hplain])
      exact hdirect hanswered (by simp [hplain]) (by simp [hflag])
    · simp only [Meets, hk, hcallback] at hmeets
      by_cases hcode : code = 0
      · rw [if_pos ⟨hflag, hcode⟩] at hs
        rw [if_pos hcode] at hmeets
        obtain rfl := Option.some.inj hs
        cases captured with
        | true =>
          rw [if_pos hcallback]
          exact hinv.handedOn hh hcontext hcallback hflag
        | false =>
          rw [if_neg (by simp [hcallback])]
          have hstatus := hmeets.resolve_left Bool.false_ne_true
          have hanswered : h.answered = true := by
            refine Bool.not_eq_false _ ▸ fun hans => hstatus ?_
            exact hcontext ▸ ((hinv.handler h hh).pending hans).1
          have hself := setContext_self (s.dropHandler h) h.context
          have hstep := @Inv.dropHandler ndebug [] s h hinv hh
            ((s.dropHandler h).contexts h.context) s.isRpcReturnByCallback .readHead
            (.inr hcontext) (.inl ⟨hanswered, rfl⟩)
          rw [hself] at hstep
          exact hstep fun hfalse => absurd (hflag.symm.trans hfalse) Bool.false_ne_true.symm
      · rw [if_neg hcode] at hmeets
        obtain ⟨rfl, hstatus⟩ := hmeets
        refine hdirect (Bool.eq_false_iff.mpr fun hans => ?_) (by simp [hcallback])
          fun hc => hcode hc.2
        exact ((hinv.handler h hh).answered hans).1 (hcontext ▸ hstatus)
  case h_2 => cases hs

theorem inv_step (hinv : Inv ndebug [] s) {a : Action} (hmeets : Meets s a)
    (hs : step ndebug s a = some s') : Inv ndebug [] s' := by
  cases a with
  | readHead seqNum => exact inv_readHead hinv hs
  | readPayload plain => exact inv_readPayload hinv hs
  | construct => exact inv_construct hinv hs
  | setAttachment k attachment => exact inv_setAttachment hinv hs
  | capture => exact inv_capture hinv hs
  | respond k reply onExecutor => exact inv_respond hinv hs
  | finish code buf => exact inv_finish hinv hmeets hs
  | finishCoroutine k code buf => exact inv_finishCoroutine hinv hs
  | runFinished k => exact inv_runFinished hinv hs
  | runTask i => exact inv_runTask hinv hs
  | release k => exact inv_release hinv hs
  | writeFront => exact inv_writeFront hinv hs

end Steps

end Yalantinglibs.CoroRpc.Server
