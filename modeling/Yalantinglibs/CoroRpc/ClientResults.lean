import Yalantinglibs.CoroRpc.ClientMatching

/-!
# The promises of the client

Every promise is completed once at most, and a response that completes it is the answer to its
request, on every run in which a request with an attachment buffer is answered with an attachment.
The buffer is the result otherwise, as it was supplied: `recv` leaves the view alone if the header
announces no attachment.

## Main definitions

* `DoneInv` — the invariant of the promises
* `Matched` — what holds of a connection

## Main results

* `matched_of_reaches` — this holds in every state that is reached
-/

set_option autoImplicit false

namespace Yalantinglibs.CoroRpc.Client

open StructPack TransitionSystem

/-- A promise is completed with an error of the client, or with the answer to its request. -/
def State.RightFor (s : State) (n : ℕ) : Completion → Prop
  | .response buffer errCode attachment => ∃ r, s.answers n = some r ∧ buffer = r.body ∧
    errCode = r.header.errCode ∧ attachment = r.attachment
  | .localError _ => True

/-- What holds of the promises of a connection. -/
structure DoneInv (s : State) : Prop where
  once : (s.completions.map Prod.fst).Nodup
  completed : ∀ n ∈ s.completions.map Prod.fst, (s.handlers n).completed = true ∧ n < s.requests
  right : ∀ p ∈ s.completions, s.RightFor p.1 p.2
  table_lt : ∀ n ∈ s.table, n < s.requests
  taken_lt : ∀ requests ec, .localError requests ec ∈ s.loops → ∀ n ∈ requests, n < s.requests

section Lemmas

variable {s s' : State} {l l' : Loop} {n : ℕ}

/-- A step that completes no promise. -/
theorem DoneInv.congr (hinv : DoneInv s) (hcompletions : s'.completions = s.completions)
    (hcompleted : ∀ n < s.requests, (s'.handlers n).completed = (s.handlers n).completed)
    (hanswers : ∀ n r, s.answers n = some r → s'.answers n = some r)
    (hrequests : s.requests ≤ s'.requests)
    (htable : ∀ n ∈ s'.table, n ∈ s.table ∨ n < s'.requests)
    (hloops : ∀ requests ec, .localError requests ec ∈ s'.loops →
      .localError requests ec ∈ s.loops ∨ ∀ n ∈ requests, n < s'.requests) : DoneInv s' where
  once := hcompletions ▸ hinv.once
  completed n hn := by
    rw [hcompletions] at hn
    obtain ⟨hdone, hlt⟩ := hinv.completed n hn
    exact ⟨(hcompleted n hlt).trans hdone, hlt.trans_le hrequests⟩
  right p hp := by
    rw [hcompletions] at hp
    have hright := hinv.right p hp
    cases hc : p.2 with
    | response buffer errCode attachment =>
      rw [hc] at hright
      obtain ⟨r, hr, h⟩ := hright
      exact ⟨r, hanswers _ r hr, h⟩
    | localError ec => trivial
  table_lt n hn := (htable n hn).elim (fun h => (hinv.table_lt n h).trans_le hrequests) id
  taken_lt requests ec hl := (hloops requests ec hl).elim
    (fun h n hn => (hinv.taken_lt requests ec h n hn).trans_le hrequests) id

/-- A handler is called. -/
theorem DoneInv.complete (hinv : DoneInv s) (hlt : n < s.requests) {c : Completion}
    (hright : s.RightFor n c) : DoneInv (s.complete n c) := by
  rw [State.complete]
  split_ifs with hdone
  · exact hinv
  · have hnot : n ∉ s.completions.map Prod.fst := fun h => hdone (hinv.completed n h).1
    exact
      { once := by
          rw [List.map_append, List.map_singleton]
          refine List.nodup_append.mpr ⟨hinv.once, List.nodup_singleton _, ?_⟩
          rintro m hm k hk rfl
          obtain rfl : m = n := List.mem_singleton.mp hk
          exact hnot hm
        completed := fun m hm => by
          by_cases heq : m = n
          · subst heq
            exact ⟨by simp only [Function.update_self], hlt⟩
          · simp only [Function.update_of_ne heq]
            rw [List.map_append, List.mem_append] at hm
            refine hinv.completed m (hm.resolve_right fun h => heq ?_)
            simpa using h
        right := fun p hp => by
          rcases List.mem_append.mp hp with hp | hp
          · have hp := hinv.right p hp
            cases hc : p.2 <;> rw [hc] at hp <;> exact hp
          · rw [List.mem_singleton.mp hp]
            cases c <;> exact hright
        table_lt := hinv.table_lt
        taken_lt := hinv.taken_lt }

/-- A `recv` goes on, and completes no promise. -/
theorem DoneInv.setLoop (hinv : DoneInv s) (hloops : s'.loops = l' :: s.loops.erase l)
    (hcompletions : s'.completions = s.completions)
    (hcompleted : ∀ n, (s'.handlers n).completed = (s.handlers n).completed)
    (hanswers : s'.answers = s.answers) (hrequests : s'.requests = s.requests)
    (htable : ∀ n ∈ s'.table, n ∈ s.table)
    (hl' : ∀ requests ec, l' = .localError requests ec → ∀ n ∈ requests, n < s.requests) :
    DoneInv s' := by
  refine hinv.congr hcompletions (fun n _ => hcompleted n) (fun _ _ hr => hanswers ▸ hr)
    hrequests.ge (fun n hn => .inl (htable n hn)) fun requests ec hl => ?_
  rw [hloops] at hl
  rcases List.mem_cons.mp hl with heq | hl
  · exact .inr (hrequests ▸ hl' requests ec heq.symm)
  · exact .inl (List.mem_of_mem_erase hl)

theorem DoneInv.dropLoop (hinv : DoneInv s) : DoneInv (s.dropLoop l) :=
  hinv.congr rfl (fun _ _ => rfl) (fun _ _ hr => hr) le_rfl (fun _ hn => .inl hn)
    fun _ _ hl => .inl (List.mem_of_mem_erase hl)

theorem doneInv_recvStep (hinv : DoneInv s) (hmatch : MatchInv s) (hl : l ∈ s.loops) {ok : Bool}
    (hs : recvStep s l ok = some s') : DoneInv s' := by
  cases l with
  | readHead =>
    rw [recvStep] at hs
    split_ifs at hs with hok hshort
    all_goals cases hs
    all_goals exact hinv.setLoop rfl rfl (fun _ => rfl) rfl rfl (fun _ hn => hn) (by simp)
  | lookup header =>
    rw [recvStep] at hs
    split at hs
    all_goals cases hs
    all_goals exact hinv.setLoop rfl rfl (fun _ => rfl) rfl rfl (fun _ hn => hn) (by simp)
  | readBody header request =>
    rw [recvStep] at hs
    simp only at hs
    split_ifs at hs with hok hshort
    all_goals cases hs
    · refine hinv.setLoop rfl rfl (fun n => ?_) rfl rfl (fun _ hn => hn) (by simp)
      by_cases heq : n = request
      · subst heq
        simp only [Function.update_self]
      · simp only [Function.update_of_ne heq]
    · exact hinv.setLoop rfl rfl (fun _ => rfl) rfl rfl (fun _ hn => hn) (by simp)
  | notify header request buffer =>
    cases hs
    obtain ⟨cur, frames, h⟩ := hmatch.stream (hmatch.works _ hl trivial)
    obtain ⟨r, rfl, rfl, -, hbody, hatt⟩ := h.loop _ hl
    obtain ⟨-, hans, -, -⟩ := hmatch.current h
    have hstep : DoneInv (s.setLoop (.notify r.header request buffer) (.erase r.header)) :=
      hinv.setLoop rfl rfl (fun _ => rfl) rfl rfl (fun _ hn => hn) (by simp)
    exact hstep.complete (hmatch.lt_of_answers hans) ⟨r, hans, hbody, rfl, hatt⟩
  | erase header =>
    cases hs
    refine hinv.setLoop rfl rfl (fun _ => rfl) rfl rfl (fun _ hn => List.mem_of_mem_filter hn) ?_
    intro requests ec heq
    split_ifs at heq
  | store =>
    cases hs
    exact hinv.setLoop rfl rfl (fun _ => rfl) rfl rfl (fun _ hn => hn) (by simp)
  | recheck =>
    cases hs
    split_ifs
    · exact hinv.dropLoop
    · exact hinv.setLoop rfl rfl (fun _ => rfl) rfl rfl (fun _ hn => hn) (by simp)
  | compareExchange =>
    rw [recvStep] at hs
    split_ifs at hs
    all_goals cases hs
    · exact hinv.dropLoop
    · exact hinv.setLoop rfl rfl (fun _ => rfl) rfl rfl (fun _ hn => hn) (by simp)
  | failed ec =>
    cases hs
    exact hinv.setLoop rfl rfl (fun _ => rfl) rfl rfl (fun _ hn => hn) (by simp)
  | closeSocketAsync ec =>
    cases hs
    exact hinv.setLoop rfl rfl (fun _ => rfl) rfl rfl (fun _ hn => hn) (by simp)
  | takeHandlers ec =>
    cases hs
    refine hinv.setLoop rfl rfl (fun _ => rfl) rfl rfl (by simp) ?_
    rintro requests ec' heq n hn
    obtain ⟨rfl, -⟩ := Loop.localError.inj heq
    exact hinv.table_lt n hn
  | localError requests ec =>
    cases requests with
    | nil =>
      cases hs
      exact hinv.dropLoop
    | cons n requests =>
      cases hs
      have hlt := hinv.taken_lt (n :: requests) ec hl
      have hstep : DoneInv (s.setLoop (.localError (n :: requests) ec)
          (.localError requests ec)) := by
        refine hinv.setLoop rfl rfl (fun _ => rfl) rfl rfl (fun _ hm => hm) ?_
        rintro requests' ec' heq m hm
        obtain ⟨rfl, -⟩ := Loop.localError.inj heq
        exact hlt m (List.mem_cons_of_mem _ hm)
      exact hstep.complete (hlt n List.mem_cons_self) trivial

/-- A `send_request` completes no promise. -/
theorem doneInv_callStep (hinv : DoneInv s) (hmatch : MatchInv s) {result : WriteResult}
    (hs : callStep s n result = some s') : DoneInv s' := by
  have hlt : s.calls n ≠ .none → n < s.requests := fun h =>
    Nat.not_le.mp fun hle => h (hmatch.begun n hle)
  have hsame : ∀ {t : State}, t.completions = s.completions → t.handlers = s.handlers →
      t.answers = s.answers → t.requests = s.requests →
      (∀ m ∈ t.table, m ∈ s.table ∨ m < t.requests) →
      (∀ requests ec, .localError requests ec ∈ t.loops → .localError requests ec ∈ s.loops) →
      DoneInv t := by
    intro t hcompletions hhandlers hanswers hrequests htable hloops
    exact hinv.congr hcompletions (fun _ _ => by rw [hhandlers]) (fun _ _ hr => hanswers ▸ hr)
      hrequests.ge htable fun requests ec hl => .inl (hloops requests ec hl)
  cases hcall : s.calls n <;> simp only [callStep, hcall] at hs
  case emplace =>
    split_ifs at hs with htaken
    all_goals cases hs
    · exact hsame rfl rfl rfl rfl (fun _ hm => .inl hm) fun _ _ hl => hl
    · refine hsame rfl rfl rfl rfl (fun m hm => ?_) fun _ _ hl => hl
      rcases List.mem_cons.mp hm with rfl | hm
      · exact .inr (hlt (by simp [hcall]))
      · exact .inl hm
  case write =>
    cases result <;> cases hs
    all_goals exact hsame rfl rfl rfl rfl (fun _ hm => .inl hm) fun _ _ hl => hl
  case erase =>
    cases hs
    exact hsame rfl rfl rfl rfl (fun _ hm => .inl (List.mem_of_mem_filter hm)) fun _ _ hl => hl
  case exchange =>
    split_ifs at hs with hrunning
    all_goals cases hs
    · exact hsame rfl rfl rfl rfl (fun _ hm => .inl hm) fun _ _ hl => hl
    · refine hsame rfl rfl rfl rfl (fun _ hm => .inl hm) fun _ _ hl => ?_
      exact (List.mem_cons.mp hl).resolve_left (by simp)
  all_goals cases hs
  all_goals exact hsame rfl rfl rfl rfl (fun _ hm => .inl hm) fun _ _ hl => hl

theorem doneInv_step (hinv : DoneInv s) (hmatch : MatchInv s) {a : Action}
    (hs : step s a = some s') : DoneInv s' := by
  cases a with
  | sendRequest buffer =>
    cases hs
    refine hinv.congr rfl (fun n hn => ?_) (fun _ _ hr => hr) (Nat.le_succ _) (fun _ hn => .inl hn)
      fun _ _ hl => .inl hl
    simp only [sendRequest, State.setCall, Function.update_of_ne hn.ne]
  | call n result => exact doneInv_callStep hinv hmatch hs
  | recv l ok =>
    obtain ⟨hl, hs⟩ := Option.ite_none_right_eq_some.mp hs
    exact doneInv_recvStep hinv hmatch hl hs
  | answer n errCode body attachment =>
    obtain ⟨⟨-, hnone, -⟩, hs⟩ := Option.ite_none_right_eq_some.mp hs
    cases hs
    refine hinv.congr rfl (fun _ _ => rfl) (fun m r hr => ?_) le_rfl (fun _ hn => .inl hn)
      fun _ _ hl => .inl hl
    have hne : m ≠ n := by
      rintro rfl
      rw [hnone] at hr
      cases hr
    simp only [Function.update_of_ne hne, hr]
  | timeout =>
    cases hs
    exact hinv.congr rfl (fun _ _ => rfl) (fun _ _ hr => hr) le_rfl (fun _ hn => .inl hn)
      fun _ _ hl => .inl hl
  | close =>
    cases hs
    exact hinv.congr rfl (fun _ _ => rfl) (fun _ _ hr => hr) le_rfl (fun _ hn => .inl hn)
      fun _ _ hl => .inl hl

theorem doneInv_initial : DoneInv initial := ⟨List.nodup_nil, nofun, nofun, nofun, nofun⟩

end Lemmas

/-! ### Every state that is reached -/

/-- The `recv` is reading the socket. -/
def Loop.reads : Loop → Bool
  | .readHead | .readBody _ _ => true
  | _ => false

/-- The `recv` has not closed the connection. -/
def Loop.Runs : Loop → Prop
  | .takeHandlers _ | .localError _ _ => False
  | _ => True

/-- Requests are matched with their responses. -/
structure Matched (s : State) : Prop where
  /-- No promise is completed twice. -/
  once : (s.completions.map Prod.fst).Nodup
  /-- A response that completes a promise is the one with the id of the request. -/
  response : ∀ n buffer errCode attachment, (n, .response buffer errCode attachment) ∈
    s.completions → ∃ r, s.answers n = some r ∧ r.header.seqNum = requestId n ∧
      buffer = r.body ∧ errCode = r.header.errCode ∧ attachment = r.attachment
  /-- One `recv` reads the socket at most. -/
  oneReader : s.loops.countP Loop.reads ≤ 1
  /-- With no call under way, a `recv` runs for the handlers in the table, until the connection is
  closed: it is active, or will look at the table again or close the connection. -/
  runs : (∀ n, ¬ (s.calls n).InProgress) → s.table ≠ [] → s.hasClosed = false →
    ∃ l ∈ s.loops, l.Runs

theorem Loop.Leaves.runs {l : Loop} (h : l.Leaves) : l.Runs := by
  cases l <;> trivial

theorem Loop.runs_of_active {l : Loop} (h : l.active = true) : l.Runs := by
  cases l <;> trivial

theorem LoopsInv.oneReader {s : State} (hinv : LoopsInv s) : s.loops.countP Loop.reads ≤ 1 := by
  have hle : s.loops.countP Loop.reads ≤ s.loops.countP Loop.active := by
    refine List.countP_mono_left fun l _ h => ?_
    cases l <;> first | rfl | cases h
  rw [hinv.count] at hle
  split_ifs at hle <;> omega

theorem LoopsInv.runs {s : State} (hinv : LoopsInv s) (hcalls : ∀ n, ¬ (s.calls n).InProgress)
    (htable : s.table ≠ []) (hclosed : s.hasClosed = false) : ∃ l ∈ s.loops, l.Runs := by
  cases hrunning : s.recvRunning with
  | true =>
    have hcount := hinv.count
    rw [hrunning, if_pos rfl] at hcount
    obtain ⟨l, hl, hactive⟩ := List.countP_pos_iff.mp (by omega : 0 < s.loops.countP Loop.active)
    exact ⟨l, hl, Loop.runs_of_active hactive⟩
  | false =>
    obtain ⟨n, hn⟩ := List.exists_mem_of_ne_nil _ htable
    obtain ⟨l, hl, hleaves⟩ := (hinv.awake hclosed hrunning n hn).resolve_left (hcalls n)
    exact ⟨l, hl, hleaves.runs⟩

/-- The invariants of a connection. -/
theorem inv_of_reaches {s : State} (h : client.Reaches Meets s) :
    LoopsInv s ∧ MatchInv s ∧ DoneInv s := by
  refine h.invariant (I := fun s => LoopsInv s ∧ MatchInv s ∧ DoneInv s)
    ⟨loopsInv_initial, matchInv_initial, doneInv_initial⟩ ?_
  rintro s a s' ⟨hloops, hmatch, hdone⟩ hmeets hs
  exact ⟨loopsInv_step hloops hs, matchInv_step hmatch hloops hmeets hs,
    doneInv_step hdone hmatch hs⟩

/-- Requests are matched with their responses, if a request with an attachment buffer is answered
with an attachment. -/
theorem matched_of_reaches {s : State} (h : client.Reaches Meets s) : Matched s := by
  obtain ⟨hloops, hmatch, hdone⟩ := inv_of_reaches h
  refine ⟨hdone.once, ?_, hloops.oneReader, hloops.runs⟩
  intro n buffer errCode attachment hmem
  obtain ⟨r, hr, hright⟩ := hdone.right _ hmem
  exact ⟨r, hr, (hmatch.answers n r hr).2.1, hright⟩

/-- A request with an attachment buffer, and the read of the answer to it. -/
def oneRequest (body attachment : Bytes) : List Action :=
  let header := (response 0 0 body attachment).header
  [.sendRequest [1, 2], .call 0 .ok, .call 0 .ok, .call 0 .ok, .call 0 .ok,
    .answer 0 0 body attachment, .recv .readHead true, .recv (.lookup header) true,
    .recv (.readBody header 0) true, .recv (.notify header 0 body) true, .recv (.erase header) true]

/-- The steps of a `recv` that reads the answer to a request. -/
def reads (n : ℕ) (errCode : UInt8) (body attachment : Bytes) : List Action :=
  let header := (response n errCode body attachment).header
  [.recv .readHead true, .recv (.lookup header) true, .recv (.readBody header n) true,
    .recv (.notify header n body) true, .recv (.erase header) true]

/-- Two requests that are answered in the other order, by the `recv` of the second, and a third that
finds the reader gone and whose own read fails. -/
def threeRequests : List Action :=
  [.sendRequest [1, 2], .call 0 .ok, .call 0 .ok, .call 0 .ok,
    .sendRequest [], .call 1 .ok, .call 1 .ok, .call 1 .ok, .call 1 .ok,
    .answer 1 5 [8] [], .answer 0 0 [7] [9]] ++ reads 1 5 [8] [] ++ [.call 0 .ok] ++
    reads 0 0 [7] [9] ++ [.recv .store true, .recv .recheck true,
    .sendRequest [], .call 2 .ok, .call 2 .ok, .call 2 .ok, .call 2 .ok, .recv .readHead false,
    .recv (.failed .io) true, .recv (.closeSocketAsync .io) true, .recv (.takeHandlers .io) true,
    .recv (.localError [2] .io) true, .recv (.localError [] .io) true]

/-- An attachment that is shorter than the buffer, an answer with an error, and an error of the
connection. -/
theorem matched_threeRequests : ∃ s, client.runIf Meets initial threeRequests = some s ∧
    s.completions = [(1, .response [8] 5 []), (0, .response [7] 0 [9]), (2, .localError .io)] ∧
    Matched s := by
  have hrun : (client.runIf Meets initial threeRequests).map State.completions =
      some [(1, .response [8] 5 []), (0, .response [7] 0 [9]), (2, .localError .io)] := by
    decide +kernel
  obtain ⟨s, hs, hcompletions⟩ := Option.map_eq_some_iff.mp hrun
  exact ⟨s, hs, hcompletions, matched_of_reaches (reaches_of_runIf .init hs)⟩

/-- The buffer of the caller passes for the attachment of a response without one. -/
theorem not_matched_noAttachment : ∃ s, client.Reachable s ∧
    s.completions = [(0, .response [7] 0 [1, 2])] ∧ ¬ Matched s := by
  have hrun : (client.runIf (fun _ _ => True) initial (oneRequest [7] [])).map
      (fun s => (s.completions, s.answers 0)) =
        some ([(0, .response [7] 0 [1, 2])], some (response 0 0 [7] [])) := by decide
  obtain ⟨s, hs, h⟩ := Option.map_eq_some_iff.mp hrun
  obtain ⟨hcompletions, hanswers⟩ := Prod.mk.inj h
  refine ⟨s, reaches_of_runIf .init hs, hcompletions, fun hmatched => ?_⟩
  obtain ⟨r, hr, -, -, -, hattachment⟩ :=
    hmatched.response 0 [7] 0 [1, 2] (hcompletions ▸ List.mem_singleton_self _)
  rw [hanswers] at hr
  obtain rfl := Option.some.inj hr
  cases hattachment

end Yalantinglibs.CoroRpc.Client
