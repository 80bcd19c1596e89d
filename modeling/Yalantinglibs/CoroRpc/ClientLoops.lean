import Mathlib.Data.List.Count
import Yalantinglibs.CoroRpc.Client

/-!
# The loops of the client

At most one `recv` of a connection reads: the one that has set `recv_running_`, or was started by
the call that has. And a handler in the table is not forgotten: as long as the connection is open,
its call is still under way and will look at `recv_running_`, or some `recv` will look at the table.

## Main definitions

* `Loop.active` — a loop for which `recv_running_` is set
* `LoopsInv` — the invariant of the loops

## Main results

* `loopsInv_step` — it is kept
-/

set_option autoImplicit false

namespace Yalantinglibs.CoroRpc.Client

/-! ### The invariant -/

/-- A `send_request` is under way. -/
def Call.InProgress : Call → Prop
  | .none | .sent | .failed => False
  | _ => True

/-- The `recv` holds `recv_running_`. -/
def Loop.active : Loop → Bool
  | .recheck | .compareExchange | .closeSocketAsync _ | .takeHandlers _ | .localError _ _ => false
  | _ => true

/-- The `recv` has given `recv_running_` back, and will look at the table again or close the
connection. -/
def Loop.Leaves : Loop → Prop
  | .recheck | .compareExchange | .closeSocketAsync _ => True
  | _ => False

/-- What holds of the loops of a connection. -/
structure LoopsInv (s : State) : Prop where
  count : s.loops.countP Loop.active = if s.recvRunning then 1 else 0
  /-- No handler in the table is forgotten. -/
  awake : s.hasClosed = false → s.recvRunning = false →
    ∀ n ∈ s.table, (s.calls n).InProgress ∨ ∃ l ∈ s.loops, l.Leaves

section Lemmas

variable {s s' : State} {l l' : Loop} {n : ℕ}

/-- The loops, with one of them in front. -/
theorem countP_loops (hl : l ∈ s.loops) :
    s.loops.countP Loop.active = (s.loops.erase l).countP Loop.active +
      if l.active then 1 else 0 := by
  rw [(List.perm_cons_erase hl).countP_eq, List.countP_cons]

/-- There is one active loop at most. -/
theorem LoopsInv.recvRunning (hinv : LoopsInv s) (hl : l ∈ s.loops) (hactive : l.active = true) :
    s.recvRunning = true := by
  have hcount := hinv.count
  rw [countP_loops hl, if_pos hactive] at hcount
  cases hrunning : s.recvRunning with
  | true => rfl
  | false =>
    rw [hrunning, if_neg Bool.false_ne_true] at hcount
    omega

theorem LoopsInv.not_active (hinv : LoopsInv s) (hl : l ∈ s.loops) (hactive : l.active = true)
    {g : Loop} (hg : g ∈ s.loops.erase l) : g.active = false := by
  have hcount := hinv.count
  rw [countP_loops hl, if_pos hactive, hinv.recvRunning hl hactive, if_pos rfl] at hcount
  have hzero : (s.loops.erase l).countP Loop.active = 0 := by omega
  simpa using List.countP_eq_zero.mp hzero g hg

/-! ### Steps -/

/-- A `recv` goes on and keeps `recv_running_`, or takes it, or gives it back. -/
theorem LoopsInv.setLoop (hinv : LoopsInv s) (hl : l ∈ s.loops)
    (hloops : s'.loops = l' :: s.loops.erase l)
    (hrunning : s'.recvRunning = s.recvRunning ∧ l'.active = l.active ∨
      s'.recvRunning = l'.active ∧ s.recvRunning = l.active)
    (hclosed : s'.hasClosed = false → s.hasClosed = false)
    (htable : ∀ m ∈ s'.table, m ∈ s.table) (hcalls : s'.calls = s.calls)
    (hleaves : s'.hasClosed = false → s'.recvRunning = false → s.recvRunning = true ∨ l.Leaves →
      s'.table ≠ [] → l'.Leaves) : LoopsInv s' where
  count := by
    have hcount := hinv.count
    rw [countP_loops hl] at hcount
    rw [hloops, List.countP_cons]
    rcases hrunning with ⟨hrunning, hactive⟩ | ⟨hrunning, hactive⟩
    · rw [hrunning, hactive, hcount]
    · rw [hactive] at hcount
      rw [hrunning]
      omega
  awake hs hr n hn := by
    by_cases h : s.recvRunning = true ∨ l.Leaves
    · exact .inr ⟨l', hloops ▸ List.mem_cons_self, hleaves hs hr h (List.ne_nil_of_mem hn)⟩
    · obtain ⟨hrun, hnot⟩ := not_or.mp h
      rcases hinv.awake (hclosed hs) (Bool.not_eq_true _ ▸ hrun) n (htable n hn) with hc | ⟨g, hg, hgl⟩
      · exact .inl (hcalls ▸ hc)
      · have hne : g ≠ l := fun heq => hnot (heq ▸ hgl)
        exact .inr ⟨g, hloops ▸ List.mem_cons_of_mem _ ((List.mem_erase_of_ne hne).mpr hg), hgl⟩

/-- A `recv` returns: it has seen that the table is empty, or that another `recv` runs. -/
theorem LoopsInv.dropLoop (hinv : LoopsInv s) (hactive : l.active = false)
    (hleaves : l.Leaves → s.table = [] ∨ s.recvRunning = true) : LoopsInv (s.dropLoop l) where
  count := by
    have hcount := hinv.count
    by_cases hl : l ∈ s.loops
    · rw [countP_loops hl, hactive] at hcount
      exact hcount
    · rw [State.dropLoop, List.erase_of_not_mem hl]
      exact hcount
  awake hs hr n hn := by
    rcases hinv.awake hs hr n hn with hc | ⟨g, hg, hgl⟩
    · exact .inl hc
    · by_cases heq : g = l
      · rcases hleaves (heq ▸ hgl) with htable | hrunning
        · rw [State.dropLoop] at hn
          simp [htable] at hn
        · exact absurd (hr.symm.trans hrunning) Bool.false_ne_true
      · exact .inr ⟨g, (List.mem_erase_of_ne heq).mpr hg, hgl⟩

/-- A call goes on. -/
theorem LoopsInv.setCall (hinv : LoopsInv s) (hloops : s'.loops = s.loops)
    (hrunning : s'.recvRunning = s.recvRunning)
    (hclosed : s'.hasClosed = false → s.hasClosed = false)
    {c : Call} (hcalls : s'.calls = Function.update s.calls n c)
    (htable : ∀ m ∈ s'.table, m ∈ s.table ∨ m = n ∧ c.InProgress)
    (hn : n ∈ s'.table → s'.recvRunning = false → s'.hasClosed = false → c.InProgress) :
    LoopsInv s' where
  count := by rw [hloops, hrunning]; exact hinv.count
  awake hs hr m hm := by
    by_cases heq : m = n
    · subst heq
      exact .inl (by rw [hcalls, Function.update_self]; exact hn hm hr hs)
    · have hmem := (htable m hm).resolve_right fun h => heq h.1
      rw [hcalls, Function.update_of_ne heq, hloops]
      exact hinv.awake (hclosed hs) (hrunning ▸ hr) m hmem

/-- What does not concern the loops. -/
theorem LoopsInv.congr (hinv : LoopsInv s) (hloops : s'.loops = s.loops)
    (hrunning : s'.recvRunning = s.recvRunning)
    (hclosed : s'.hasClosed = false → s.hasClosed = false)
    (htable : s'.table = s.table) (hcalls : s'.calls = s.calls) : LoopsInv s' where
  count := by rw [hloops, hrunning]; exact hinv.count
  awake hs hr n hn := by
    rw [hcalls, hloops]
    exact hinv.awake (hclosed hs) (hrunning ▸ hr) n (htable ▸ hn)

theorem complete_loops (s : State) (n : ℕ) (c : Completion) :
    (s.complete n c).loops = s.loops ∧ (s.complete n c).recvRunning = s.recvRunning ∧
      (s.complete n c).hasClosed = s.hasClosed ∧ (s.complete n c).table = s.table ∧
        (s.complete n c).calls = s.calls := by
  rw [State.complete]
  split_ifs <;> exact ⟨rfl, rfl, rfl, rfl, rfl⟩

theorem loopsInv_recvStep (hinv : LoopsInv s) (hl : l ∈ s.loops) {ok : Bool}
    (hs : recvStep s l ok = some s') : LoopsInv s' := by
  -- steps of an active loop that stays so
  have hstays : ∀ {g : Loop} {t : State}, l.active = true → g.active = true →
      t.loops = g :: s.loops.erase l → t.recvRunning = s.recvRunning →
      t.hasClosed = s.hasClosed → (∀ m ∈ t.table, m ∈ s.table) → t.calls = s.calls →
      LoopsInv t := by
    intro g t hactive hg hloops hrunning hclosed htable hcalls
    refine hinv.setLoop hl hloops (.inl ⟨hrunning, hg.trans hactive.symm⟩) (fun h => hclosed ▸ h)
      htable hcalls fun _ hr => ?_
    rw [hrunning, hinv.recvRunning hl hactive] at hr
    cases hr
  cases l with
  | readHead =>
    rw [recvStep] at hs
    split_ifs at hs with hok hshort
    all_goals cases hs
    · exact hstays rfl rfl rfl rfl rfl (fun _ h => h) rfl
    · exact hstays rfl rfl rfl rfl rfl (fun _ h => h) rfl
  | lookup header =>
    rw [recvStep] at hs
    split at hs
    all_goals cases hs
    · exact hstays rfl rfl rfl rfl rfl (fun _ h => h) rfl
    · exact hstays rfl rfl rfl rfl rfl (fun _ h => h) rfl
  | readBody header request =>
    rw [recvStep] at hs
    simp only at hs
    split_ifs at hs with hok hshort
    all_goals cases hs
    · exact hstays rfl rfl rfl rfl rfl (fun _ h => h) rfl
    · exact hstays rfl rfl rfl rfl rfl (fun _ h => h) rfl
  | notify header request buffer =>
    cases hs
    obtain ⟨hloops, hrunning, hclosed, htable, hcalls⟩ := complete_loops
      (s.setLoop (.notify header request buffer) (.erase header)) request
      (.response buffer header.errCode (s.handlers request).buffer)
    exact hstays rfl rfl hloops hrunning hclosed (fun _ h => htable ▸ h) hcalls
  | erase header =>
    cases hs
    refine hstays rfl ?_ rfl rfl rfl (fun _ h => List.mem_of_mem_filter h) rfl
    split_ifs <;> rfl
  | store =>
    cases hs
    exact hinv.setLoop hl rfl (.inr ⟨rfl, hinv.recvRunning hl rfl⟩) id (fun _ h => h) rfl
      fun _ _ _ _ => trivial
  | recheck =>
    cases hs
    split_ifs with htable
    · exact hinv.dropLoop rfl fun _ => .inl htable
    · exact hinv.setLoop hl rfl (.inl ⟨rfl, rfl⟩) id (fun _ h => h) rfl fun _ _ _ _ => trivial
  | compareExchange =>
    rw [recvStep] at hs
    split_ifs at hs with hrunning
    all_goals cases hs
    · exact hinv.dropLoop rfl fun _ => .inr hrunning
    · exact hinv.setLoop hl rfl (.inr ⟨rfl, Bool.eq_false_iff.mpr hrunning⟩) id (fun _ h => h) rfl
        fun _ hr => absurd hr.symm Bool.false_ne_true
  | failed ec =>
    cases hs
    exact hinv.setLoop hl rfl (.inr ⟨rfl, hinv.recvRunning hl rfl⟩) id (fun _ h => h) rfl
      fun _ _ _ _ => trivial
  | closeSocketAsync ec =>
    cases hs
    exact hinv.setLoop hl rfl (.inl ⟨rfl, rfl⟩) nofun (fun _ h => h) rfl nofun
  | takeHandlers ec =>
    cases hs
    -- the table is empty then
    exact hinv.setLoop hl rfl (.inl ⟨rfl, rfl⟩) id nofun rfl fun _ _ _ h => absurd rfl h
  | localError requests ec =>
    cases requests with
    | nil =>
      cases hs
      exact hinv.dropLoop rfl nofun
    | cons n requests =>
      cases hs
      obtain ⟨hloops, hrunning, hclosed, htable, hcalls⟩ := complete_loops
        (s.setLoop (.localError (n :: requests) ec) (.localError requests ec)) n (.localError ec)
      refine LoopsInv.congr ?_ hloops hrunning (fun h => hclosed ▸ h) htable hcalls
      refine hinv.setLoop hl rfl (.inl ⟨rfl, rfl⟩) id (fun _ h => h) rfl fun _ hr h _ => ?_
      rcases h with h | h
      · exact absurd (hr.symm.trans h) Bool.false_ne_true
      · exact h

theorem loopsInv_callStep (hinv : LoopsInv s) {result : WriteResult}
    (hs : callStep s n result = some s') : LoopsInv s' := by
  cases hcall : s.calls n <;> simp only [callStep, hcall] at hs
  case emplace =>
    split_ifs at hs with htaken
    all_goals cases hs
    · exact hinv.setCall rfl rfl id rfl (fun _ h => .inl h) fun _ _ _ => trivial
    · refine hinv.setCall rfl rfl id rfl (fun m hm => ?_) fun _ _ _ => trivial
      rcases List.mem_cons.mp hm with rfl | hm
      · exact .inr ⟨rfl, trivial⟩
      · exact .inl hm
  case conflict =>
    cases hs
    exact hinv.setCall rfl rfl nofun rfl (fun _ h => .inl h) nofun
  case check =>
    cases hs
    refine hinv.setCall rfl rfl id rfl (fun _ h => .inl h) fun _ _ _ => ?_
    split_ifs <;> trivial
  case write =>
    cases result <;> cases hs
    all_goals exact hinv.setCall rfl rfl id rfl (fun _ h => .inl h) fun _ _ _ => trivial
  case close =>
    cases hs
    exact hinv.setCall rfl rfl nofun rfl (fun _ h => .inl h) nofun
  case erase =>
    cases hs
    -- its handler is not in the table then
    refine hinv.setCall rfl rfl id rfl (fun _ h => .inl (List.mem_of_mem_filter h)) fun hn => ?_
    simpa using List.of_mem_filter hn
  case exchange =>
    split_ifs at hs with hrunning
    all_goals cases hs
    · exact hinv.setCall rfl rfl id rfl (fun _ h => .inl h)
        fun _ hr => absurd (hr.symm.trans hrunning) Bool.false_ne_true
    · have hcount := hinv.count
      rw [if_neg hrunning] at hcount
      exact
        { count := by
            rw [List.countP_cons_of_pos rfl, hcount]
            rfl
          awake := fun _ hr => absurd hr.symm Bool.false_ne_true }
  all_goals cases hs

theorem loopsInv_step (hinv : LoopsInv s) {a : Action} (hs : step s a = some s') :
    LoopsInv s' := by
  cases a with
  | sendRequest buffer =>
    cases hs
    exact hinv.setCall rfl rfl id rfl (fun _ h => .inl h) fun _ _ _ => trivial
  | call n result => exact loopsInv_callStep hinv hs
  | recv l ok =>
    obtain ⟨hl, hs⟩ := Option.ite_none_right_eq_some.mp hs
    exact loopsInv_recvStep hinv hl hs
  | answer n errCode body attachment =>
    obtain ⟨-, hs⟩ := Option.ite_none_right_eq_some.mp hs
    cases hs
    exact hinv.congr rfl rfl id rfl rfl
  | timeout =>
    cases hs
    exact hinv.congr rfl rfl id rfl rfl
  | close =>
    cases hs
    exact hinv.congr rfl rfl nofun rfl rfl

theorem loopsInv_initial : LoopsInv initial := ⟨rfl, nofun⟩

end Lemmas

end Yalantinglibs.CoroRpc.Client
