import Mathlib.Data.List.Nodup
import Yalantinglibs.CoroRpc.ClientLoops

/-!
# Requests and responses of the client

As long as no read has failed, what is left on the socket are the answers that the client has not
read, whole but for the one that a `recv` is reading; and the handlers of these answers are in the
table, each under an id of its own.

## Main definitions

* `Stream` — the answers on the socket, and what a `recv` has of the first one
* `MatchInv` — the invariant

## Main results

* `matchInv_step` — it is kept
-/

set_option autoImplicit false

namespace Yalantinglibs.CoroRpc.Client

open StructPack

/-! ### The invariant -/

/-- The handler of the call is in the table, whatever has happened. -/
def Call.HoldsHandler : Call → Prop
  | .check | .write | .close | .erase => True
  | _ => False

/-- Answers on the wire. -/
def wires (frames : List (ℕ × Response)) : Bytes := frames.flatMap fun p => wire p.2

/-- The server answers without an attachment only where the caller has not supplied a buffer for
one. -/
def Meets (s : State) : Action → Prop
  | .answer n _ _ attachment => attachment = [] → (s.handlers n).buffer = []
  | _ => True

instance (s : State) (a : Action) : Decidable (Meets s a) := by
  cases a <;> unfold Meets <;> infer_instance

/-- Where a `recv` stands in the stream: `cur` is the answer it has begun to read. -/
def Loop.At (s : State) (cur : Option (ℕ × Response)) (frames : List (ℕ × Response)) :
    Loop → Prop
  | .readHead | .store => cur = none ∧ s.inbound = wires frames
  | .lookup header => ∃ n r, cur = some (n, r) ∧ header = r.header ∧
    s.inbound = r.body ++ (r.attachment ++ wires frames) ∧
      (r.attachment = [] → (s.handlers n).buffer = [])
  | .readBody header n => ∃ r, cur = some (n, r) ∧ header = r.header ∧
    s.inbound = r.body ++ (r.attachment ++ wires frames) ∧
      (r.attachment = [] → (s.handlers n).buffer = [])
  | .notify header n buffer => ∃ r, cur = some (n, r) ∧ header = r.header ∧
    s.inbound = wires frames ∧ buffer = r.body ∧ (s.handlers n).buffer = r.attachment
  | .erase header => ∃ n r, cur = some (n, r) ∧ header = r.header ∧ s.inbound = wires frames
  | .failed _ => False
  | _ => True

/-- The answers that the client has not read, or is about to. -/
structure Stream (s : State) (cur : Option (ℕ × Response)) (frames : List (ℕ × Response)) :
    Prop where
  answered : ∀ p ∈ cur.toList ++ frames, s.answers p.1 = some p.2 ∧ p.1 ∈ s.table
  nodup : ((cur.toList ++ frames).map Prod.fst).Nodup
  buffer : ∀ p ∈ frames, p.2.attachment = [] → (s.handlers p.1).buffer = []
  loop : ∀ l ∈ s.loops, l.At s cur frames
  idle : s.recvRunning = false → cur = none ∧ s.inbound = wires frames

/-- The `recv` has something of an answer. -/
def Loop.Works : Loop → Prop
  | .lookup _ | .readBody _ _ | .notify _ _ _ | .erase _ => True
  | _ => False

/-- The `recv` will take all handlers. -/
def Loop.Broken : Loop → Prop
  | .failed _ | .closeSocketAsync _ | .takeHandlers _ => True
  | _ => False

/-- A response to the request with this number, and a header that counts its bytes. -/
def Answers (n : ℕ) (r : Response) : Prop :=
  r.header.seqNum = requestId n ∧ r.header.length.toNat = r.body.length ∧
    r.header.attachLength.toNat = r.attachment.length

/-- The handler of a request cannot be taken away: its call has it still, or waits for an answer
that the server did not give yet. -/
def State.Owes (s : State) (n : ℕ) : Prop :=
  (s.calls n).HoldsHandler ∨ (s.calls n).Written ∧ s.answers n = none

/-- What holds of the table and the socket of a connection. -/
structure MatchInv (s : State) : Prop where
  ids : (s.table.map requestId).Nodup
  begun : ∀ n, s.requests ≤ n → s.calls n = .none
  answers : ∀ n r, s.answers n = some r → (s.calls n).Written ∧ Answers n r
  owes : s.readFailed = false → ∀ n, s.Owes n → n ∈ s.table
  stream : s.readFailed = false → ∃ cur frames, Stream s cur frames
  works : ∀ l ∈ s.loops, l.Works → s.readFailed = false
  broken : ∀ l ∈ s.loops, l.Broken → s.readFailed = true

section Lemmas

variable {s s' : State} {l l' : Loop} {n : ℕ} {cur : Option (ℕ × Response)}
  {frames : List (ℕ × Response)}

theorem Loop.at_of_not_active (h : l.active = false) : l.At s cur frames := by
  cases l <;> first | exact trivial | cases h

theorem Loop.Works.active (h : l.Works) : l.active = true := by
  cases l <;> first | rfl | cases h

theorem Loop.At.congr (h : l.At s cur frames) (hinbound : s'.inbound = s.inbound)
    (hbuffer : ∀ n, n ∈ cur.map Prod.fst → (s'.handlers n).buffer = (s.handlers n).buffer) :
    l.At s' cur frames := by
  cases l with
  | readHead => exact ⟨h.1, hinbound.trans h.2⟩
  | store => exact ⟨h.1, hinbound.trans h.2⟩
  | lookup header =>
    obtain ⟨n, r, rfl, hheader, hin, hatt⟩ := h
    exact ⟨n, r, rfl, hheader, hinbound.trans hin, fun hr => (hbuffer n rfl).trans (hatt hr)⟩
  | readBody header n =>
    obtain ⟨r, rfl, hheader, hin, hatt⟩ := h
    exact ⟨r, rfl, hheader, hinbound.trans hin, fun hr => (hbuffer n rfl).trans (hatt hr)⟩
  | notify header n buffer =>
    obtain ⟨r, rfl, hheader, hin, hbody, hatt⟩ := h
    exact ⟨r, rfl, hheader, hinbound.trans hin, hbody, (hbuffer n rfl).trans hatt⟩
  | erase header =>
    obtain ⟨n, r, rfl, hheader, hin⟩ := h
    exact ⟨n, r, rfl, hheader, hinbound.trans hin⟩
  | failed ec => exact h
  | _ => exact trivial

/-- A request that was answered has begun. -/
theorem MatchInv.lt_of_answers (hinv : MatchInv s) {r : Response} (h : s.answers n = some r) :
    n < s.requests := by
  by_contra hle
  have hwritten := (hinv.answers n r h).1
  rw [hinv.begun n (Nat.not_lt.mp hle)] at hwritten
  exact hwritten

/-- Different requests of the table have different ids. -/
theorem MatchInv.eq_of_id (hinv : MatchInv s) {m : ℕ} (hn : n ∈ s.table) (hm : m ∈ s.table)
    (h : requestId n = requestId m) : n = m :=
  List.inj_on_of_nodup_map hinv.ids hn hm h

theorem nodup_map_filter {xs : List ℕ} (h : (xs.map requestId).Nodup) (p : ℕ → Bool) :
    ((xs.filter p).map requestId).Nodup :=
  h.sublist (List.filter_sublist.map _)

/-! ### Calls -/

/-- A call goes on. -/
theorem MatchInv.setCall (hinv : MatchInv s) {c : Call} (hcall : s.calls n ≠ .none)
    (hids : (s'.table.map requestId).Nodup) (hrequests : s'.requests = s.requests)
    (hcalls : s'.calls = Function.update s.calls n c) (hanswers : s'.answers = s.answers)
    (hfailed : s'.readFailed = s.readFailed) (hinbound : s'.inbound = s.inbound)
    (hhandlers : s'.handlers = s.handlers)
    (hloops : s'.loops = s.loops ∧ s'.recvRunning = s.recvRunning ∨
      s'.loops = .readHead :: s.loops ∧ s'.recvRunning = true ∧ s.recvRunning = false)
    (hkeep : s.readFailed = false → ∀ m ∈ s.table, m ≠ n ∨ (s.calls n).Written → m ∈ s'.table)
    (howes : s.readFailed = false → c.HoldsHandler ∨ c.Written ∧ s.answers n = Option.none →
      n ∈ s'.table)
    (hwritten : (s.calls n).Written → c.Written) : MatchInv s' where
  ids := hids
  begun m hm := by
    rw [hrequests] at hm
    have hne : m ≠ n := fun heq => hcall (heq ▸ hinv.begun m hm)
    rw [hcalls, Function.update_of_ne hne]
    exact hinv.begun m hm
  answers m r hr := by
    rw [hanswers] at hr
    obtain ⟨hw, hright⟩ := hinv.answers m r hr
    refine ⟨?_, hright⟩
    rw [hcalls]
    by_cases heq : m = n
    · subst heq
      rw [Function.update_self]
      exact hwritten hw
    · rwa [Function.update_of_ne heq]
  owes hf m hm := by
    rw [hfailed] at hf
    rw [State.Owes, hcalls, hanswers] at hm
    by_cases heq : m = n
    · subst heq
      rw [Function.update_self] at hm
      exact howes hf hm
    · rw [Function.update_of_ne heq] at hm
      exact hkeep hf m (hinv.owes hf m hm) (.inl heq)
  stream hf := by
    rw [hfailed] at hf
    obtain ⟨cur, frames, h⟩ := hinv.stream hf
    have hat : ∀ l ∈ s.loops, l.At s' cur frames :=
      fun l hl => (h.loop l hl).congr hinbound fun m _ => by rw [hhandlers]
    refine ⟨cur, frames, ⟨fun p hp => ?_, h.nodup, fun p hp => ?_, ?_, ?_⟩⟩
    · obtain ⟨hans, hmem⟩ := h.answered p hp
      refine ⟨hanswers ▸ hans, hkeep hf _ hmem ?_⟩
      by_cases heq : p.1 = n
      · exact .inr (heq ▸ (hinv.answers p.1 p.2 hans).1)
      · exact .inl heq
    · rw [hhandlers]
      exact h.buffer p hp
    · rcases hloops with ⟨hloops, -⟩ | ⟨hloops, -, hidle⟩
      · rwa [hloops]
      · rw [hloops]
        refine List.forall_mem_cons.mpr ⟨?_, hat⟩
        exact ⟨(h.idle hidle).1, hinbound.trans (h.idle hidle).2⟩
    · intro hr
      rcases hloops with ⟨-, hrunning⟩ | ⟨-, hrunning, -⟩
      · exact ⟨(h.idle (hrunning ▸ hr)).1, hinbound.trans (h.idle (hrunning ▸ hr)).2⟩
      · exact absurd (hr.symm.trans hrunning) Bool.false_ne_true
  works l hl hw := by
    rw [hfailed]
    rcases hloops with ⟨hloops, -⟩ | ⟨hloops, -, -⟩
    · exact hinv.works l (hloops ▸ hl) hw
    · rw [hloops] at hl
      rcases List.mem_cons.mp hl with rfl | hl
      · exact hw.elim
      · exact hinv.works l hl hw
  broken l hl hb := by
    rw [hfailed]
    rcases hloops with ⟨hloops, -⟩ | ⟨hloops, -, -⟩
    · exact hinv.broken l (hloops ▸ hl) hb
    · rw [hloops] at hl
      rcases List.mem_cons.mp hl with rfl | hl
      · exact hb.elim
      · exact hinv.broken l hl hb

theorem matchInv_callStep (hinv : MatchInv s) {result : WriteResult}
    (hs : callStep s n result = some s') : MatchInv s' := by
  have hsame : s.loops = s.loops ∧ s.recvRunning = s.recvRunning := ⟨rfl, rfl⟩
  -- the call has its handler in the table still
  have hhas : (s.calls n).HoldsHandler → s.readFailed = false → n ∈ s.table :=
    fun h hf => hinv.owes hf n (.inl h)
  cases hcall : s.calls n <;> simp only [callStep, hcall] at hs
  case emplace =>
    split_ifs at hs with htaken
    all_goals cases hs
    · exact hinv.setCall (by simp [hcall]) hinv.ids rfl rfl rfl rfl rfl rfl (.inl hsame)
        (fun _ _ h _ => h) (fun _ h => (h.elim id And.left).elim) (by simp [hcall, Call.Written])
    · refine hinv.setCall (by simp [hcall]) ?_ rfl rfl rfl rfl rfl rfl (.inl hsame)
        (fun _ _ h _ => List.mem_cons_of_mem _ h) (fun _ _ => List.mem_cons_self)
        (by simp [hcall, Call.Written])
      refine List.nodup_cons.mpr ⟨fun hmem => htaken ?_, hinv.ids⟩
      exact List.mem_map.mp hmem
  case conflict =>
    cases hs
    exact hinv.setCall (by simp [hcall]) hinv.ids rfl rfl rfl rfl rfl rfl (.inl hsame)
      (fun _ _ h _ => h) (fun _ h => (h.elim id And.left).elim) (by simp [hcall, Call.Written])
  case check =>
    cases hs
    exact hinv.setCall (by simp [hcall]) hinv.ids rfl rfl rfl rfl rfl rfl (.inl hsame)
      (fun _ _ h _ => h) (fun hf _ => hhas (hcall ▸ trivial) hf) (by simp [hcall, Call.Written])
  case write =>
    cases result <;> cases hs
    all_goals
      exact hinv.setCall (by simp [hcall]) hinv.ids rfl rfl rfl rfl rfl rfl (.inl hsame)
        (fun _ _ h _ => h) (fun hf _ => hhas (hcall ▸ trivial) hf) (by simp [hcall, Call.Written])
  case close =>
    cases hs
    exact hinv.setCall (by simp [hcall]) hinv.ids rfl rfl rfl rfl rfl rfl (.inl hsame)
      (fun _ _ h _ => h) (fun hf _ => hhas (hcall ▸ trivial) hf) (by simp [hcall, Call.Written])
  case erase =>
    cases hs
    refine hinv.setCall (by simp [hcall]) (nodup_map_filter hinv.ids _) rfl rfl rfl rfl rfl rfl
      (.inl hsame) (fun hf m hm hne => ?_) (fun _ h => (h.elim id And.left).elim)
      (by simp [hcall, Call.Written])
    -- no other handler has the id
    have hne : m ≠ n := hne.resolve_right (by simp [hcall, Call.Written])
    refine List.mem_filter.mpr ⟨hm, decide_eq_true fun hid => hne ?_⟩
    exact hinv.eq_of_id hm (hhas (hcall ▸ trivial) hf) hid
  case exchange =>
    have howes : s.readFailed = false → Call.HoldsHandler .sent ∨ Call.Written .sent ∧
        s.answers n = Option.none → n ∈ s.table :=
      fun hf h => hinv.owes hf n (.inr ⟨hcall ▸ trivial, (h.resolve_left id).2⟩)
    split_ifs at hs with hrunning
    all_goals cases hs
    · exact hinv.setCall (by simp [hcall]) hinv.ids rfl rfl rfl rfl rfl rfl (.inl hsame)
        (fun _ _ h _ => h) howes fun _ => trivial
    · exact hinv.setCall (by simp [hcall]) hinv.ids rfl rfl rfl rfl rfl rfl
        (.inr ⟨rfl, rfl, Bool.eq_false_iff.mpr hrunning⟩) (fun _ _ h _ => h) howes fun _ => trivial
  all_goals cases hs

/-! ### Loops -/

/-- The active `recv` goes on. -/
theorem MatchInv.setLoop (hinv : MatchInv s) (hloopsInv : LoopsInv s) (hl : l ∈ s.loops)
    (hactive : l.active = true) (hloops : s'.loops = l' :: s.loops.erase l)
    (hids : (s'.table.map requestId).Nodup) (hrequests : s'.requests = s.requests)
    (hcalls : s'.calls = s.calls) (hanswers : s'.answers = s.answers)
    (hfailed : s'.readFailed = false → s.readFailed = false)
    (howes : s'.readFailed = false → ∀ n ∈ s.table, s.Owes n → n ∈ s'.table)
    (hworks : l'.Works → s'.readFailed = false) (hbroken : l'.Broken → s'.readFailed = true)
    (hstream : s'.readFailed = false → ∀ cur frames, Stream s cur frames → ∃ cur' frames',
      l'.At s' cur' frames' ∧ (cur'.toList ++ frames').Sublist (cur.toList ++ frames) ∧
        (∀ p ∈ cur'.toList ++ frames', p.1 ∈ s'.table) ∧
          (∀ p ∈ frames', (s'.handlers p.1).buffer = (s.handlers p.1).buffer) ∧
            frames'.Sublist frames ∧
              (s'.recvRunning = false → cur' = none ∧ s'.inbound = wires frames')) :
    MatchInv s' where
  ids := hids
  begun n hn := by
    rw [hrequests] at hn
    rw [hcalls]
    exact hinv.begun n hn
  answers n r hr := by
    rw [hcalls]
    exact hinv.answers n r (hanswers ▸ hr)
  owes hf n hn := by
    rw [State.Owes, hcalls, hanswers] at hn
    exact howes hf n (hinv.owes (hfailed hf) n hn) hn
  stream hf := by
    obtain ⟨cur, frames, h⟩ := hinv.stream (hfailed hf)
    obtain ⟨cur', frames', hat, hsub, htable, hbuffer, hsub', hidle⟩ := hstream hf cur frames h
    refine ⟨cur', frames', ⟨fun p hp => ?_, h.nodup.sublist (hsub.map _), fun p hp hr => ?_, ?_,
      hidle⟩⟩
    · exact ⟨hanswers ▸ (h.answered p (hsub.subset hp)).1, htable p hp⟩
    · rw [hbuffer p hp]
      exact h.buffer p (hsub'.subset hp) hr
    · rw [hloops]
      exact List.forall_mem_cons.mpr ⟨hat, fun g hg =>
        Loop.at_of_not_active (hloopsInv.not_active hl hactive hg)⟩
  works g hg hw := by
    rw [hloops] at hg
    rcases List.mem_cons.mp hg with rfl | hg
    · exact hworks hw
    · have hnot := hloopsInv.not_active hl hactive hg
      rw [hw.active] at hnot
      cases hnot
  broken g hg hb := by
    rw [hloops] at hg
    rcases List.mem_cons.mp hg with rfl | hg
    · exact hbroken hb
    · refine Bool.not_eq_false _ ▸ fun hf => ?_
      have htrue := hinv.broken g (List.mem_of_mem_erase hg) hb
      rw [hfailed hf] at htrue
      cases htrue

/-- A `recv` that is not active goes on: it reads again at most. -/
theorem MatchInv.setInactive (hinv : MatchInv s)
    (hloops : ∀ g ∈ s'.loops, g ∈ s.loops ∨ g = .readHead ∧ s.recvRunning = false ∨
      g.active = false ∧ (g.Broken → s.readFailed = true))
    (htable : s'.table = s.table ∨ s'.table = [] ∧ s.readFailed = true)
    (hrequests : s'.requests = s.requests) (hcalls : s'.calls = s.calls)
    (hanswers : s'.answers = s.answers) (hfailed : s'.readFailed = s.readFailed)
    (hinbound : s'.inbound = s.inbound)
    (hbuffer : ∀ n, (s'.handlers n).buffer = (s.handlers n).buffer)
    (hrunning : s'.recvRunning = false → s.recvRunning = false) : MatchInv s' where
  ids := by
    rcases htable with htable | ⟨htable, -⟩
    · rw [htable]
      exact hinv.ids
    · rw [htable]
      exact List.nodup_nil
  begun n hn := by
    rw [hrequests] at hn
    rw [hcalls]
    exact hinv.begun n hn
  answers n r hr := by
    rw [hcalls]
    exact hinv.answers n r (hanswers ▸ hr)
  owes hf n hn := by
    rw [State.Owes, hcalls, hanswers] at hn
    rw [hfailed] at hf
    rw [htable.resolve_right fun h => Bool.false_ne_true (hf.symm.trans h.2)]
    exact hinv.owes hf n hn
  stream hf := by
    rw [hfailed] at hf
    obtain ⟨cur, frames, h⟩ := hinv.stream hf
    have htable := htable.resolve_right fun h => Bool.false_ne_true (hf.symm.trans h.2)
    refine ⟨cur, frames, ⟨?_, h.nodup, ?_, fun g hg => ?_, fun hr => ?_⟩⟩
    · rw [hanswers, htable]
      exact h.answered
    · intro p hp
      rw [hbuffer]
      exact h.buffer p hp
    · rcases hloops g hg with hg | ⟨rfl, hidle⟩ | ⟨hactive, -⟩
      · exact (h.loop g hg).congr hinbound fun n _ => hbuffer n
      · exact ⟨(h.idle hidle).1, hinbound.trans (h.idle hidle).2⟩
      · exact Loop.at_of_not_active hactive
    · exact ⟨(h.idle (hrunning hr)).1, hinbound.trans (h.idle (hrunning hr)).2⟩
  works g hg hw := by
    rw [hfailed]
    rcases hloops g hg with hg | ⟨rfl, -⟩ | ⟨hactive, -⟩
    · exact hinv.works g hg hw
    · exact hw.elim
    · rw [hw.active] at hactive
      cases hactive
  broken g hg hb := by
    rw [hfailed]
    rcases hloops g hg with hg | ⟨rfl, -⟩ | ⟨-, hbroken⟩
    · exact hinv.broken g hg hb
    · exact hb.elim
    · exact hbroken hb

theorem complete_buffer (s : State) (n : ℕ) (c : Completion) (m : ℕ) :
    ((s.complete n c).handlers m).buffer = (s.handlers m).buffer := by
  rw [State.complete]
  split_ifs
  · rfl
  · by_cases heq : m = n
    · subst heq
      simp
    · simp [heq]

theorem complete_stream (s : State) (n : ℕ) (c : Completion) :
    (s.complete n c).requests = s.requests ∧ (s.complete n c).answers = s.answers ∧
      (s.complete n c).readFailed = s.readFailed ∧ (s.complete n c).inbound = s.inbound := by
  rw [State.complete]
  split_ifs <;> exact ⟨rfl, rfl, rfl, rfl⟩

/-- A read fails. -/
theorem MatchInv.fail (hinv : MatchInv s) (hloopsInv : LoopsInv s) (hl : l ∈ s.loops)
    (hactive : l.active = true) (ec : ErrorCode) :
    MatchInv { s.setLoop l (.failed ec) with readFailed := true } :=
  hinv.setLoop hloopsInv hl hactive rfl hinv.ids rfl rfl rfl nofun nofun nofun (fun _ => rfl) nofun

theorem readAttachment_eq {buffer attachment : Bytes} {attachLength : ℕ}
    (hlen : attachLength = attachment.length) (hempty : attachment = [] → buffer = []) :
    readAttachment buffer attachLength attachment = attachment := by
  rw [readAttachment]
  subst hlen
  split_ifs with hzero hshort hlong
  · have hnil := List.eq_nil_of_length_eq_zero hzero
    rw [hnil, hempty hnil]
  · simp
  · simp
  · have hdrop : buffer.drop attachment.length = [] := List.drop_eq_nil_of_le (by omega)
    simp only [hdrop, List.append_nil]

theorem wires_cons (p : ℕ × Response) (frames : List (ℕ × Response)) :
    wires (p :: frames) = serializeHeader p.2.header ++
      (p.2.body ++ (p.2.attachment ++ wires frames)) := by
  rw [wires, List.flatMap_cons, wire, List.append_assoc, List.append_assoc]
  rfl

/-- The answer that a `recv` has is one to a request of the table. -/
theorem MatchInv.current (hinv : MatchInv s) {r : Response} (h : Stream s (some (n, r)) frames) :
    n ∈ s.table ∧ s.answers n = some r ∧ (s.calls n).Written ∧ Answers n r := by
  obtain ⟨hans, hmem⟩ := h.answered (n, r) List.mem_cons_self
  exact ⟨hmem, hans, hinv.answers n r hans⟩

/-- A call that was answered waits for no answer. -/
theorem MatchInv.ne_of_owes (hinv : MatchInv s) {r : Response} (h : s.answers n = some r) {m : ℕ}
    (hm : s.Owes m) : m ≠ n := by
  rintro rfl
  have hwritten := (hinv.answers m r h).1
  rcases hm with hm | ⟨-, hm⟩
  · cases hcall : s.calls m <;> simp_all [Call.Written, Call.HoldsHandler]
  · rw [h] at hm
    cases hm

theorem matchInv_recvStep (hinv : MatchInv s) (hloopsInv : LoopsInv s) (hl : l ∈ s.loops)
    {ok : Bool} (hs : recvStep s l ok = some s') : MatchInv s' := by
  -- loops behind the one that goes on
  have herase : ∀ {g g' : Loop}, g ∈ g' :: s.loops.erase l → g = g' ∨ g ∈ s.loops :=
    fun h => (List.mem_cons.mp h).imp id List.mem_of_mem_erase
  have hkeeps : ∀ n ∈ s.table, s.Owes n → n ∈ s.table := fun _ h _ => h
  cases l with
  | readHead =>
    rw [recvStep] at hs
    split_ifs at hs with hok hshort
    all_goals cases hs
    · obtain ⟨hfailed, hlen⟩ := not_or.mp hshort
      refine hinv.setLoop hloopsInv hl rfl rfl hinv.ids rfl rfl rfl id (fun _ => hkeeps)
        (fun _ => Bool.not_eq_true _ ▸ hfailed) False.elim fun _ cur frames h => ?_
      obtain ⟨rfl, hinbound⟩ := h.loop _ hl
      cases frames with
      | nil => simp [hinbound, wires, RESP_HEAD_LEN] at hlen
      | cons p frames =>
        rw [wires_cons] at hinbound
        have hhead := serializeHeader_length p.2.header
        have htake : s.inbound.take RESP_HEAD_LEN = serializeHeader p.2.header := by
          rw [hinbound, ← hhead, List.take_left]
        have hdrop : s.inbound.drop RESP_HEAD_LEN =
            p.2.body ++ (p.2.attachment ++ wires frames) := by
          rw [hinbound, ← hhead, List.drop_left]
        refine ⟨some p, frames, ⟨p.1, p.2, rfl, ?_, hdrop, h.buffer p List.mem_cons_self⟩, ?_,
          fun q hq => (h.answered q hq).2, fun _ _ => rfl, List.sublist_cons_self _ _, fun hr => ?_⟩
        · rw [htake, deserializeHeader_serializeHeader]
        · exact List.Sublist.refl _
        · exact absurd (hr.symm.trans (hloopsInv.recvRunning hl rfl)) Bool.false_ne_true
    · exact hinv.fail hloopsInv hl rfl .io
  | lookup header =>
    have hf := hinv.works _ hl trivial
    rw [recvStep] at hs
    split at hs
    case h_1 request hfind =>
      cases hs
      refine hinv.setLoop hloopsInv hl rfl rfl hinv.ids rfl rfl rfl id (fun _ => hkeeps)
        (fun _ => hf) False.elim fun _ cur frames h => ?_
      obtain ⟨n, r, rfl, rfl, hinbound, hatt⟩ := h.loop _ hl
      obtain ⟨hmem, -, -, hseq, -⟩ := hinv.current h
      -- no other request has the id
      obtain rfl : request = n := by
        refine hinv.eq_of_id (List.mem_of_find?_eq_some hfind) hmem ?_
        rw [← hseq]
        simpa using List.find?_some hfind
      refine ⟨some (request, r), frames, ⟨r, rfl, rfl, hinbound, hatt⟩, List.Sublist.refl _,
        fun p hp => (h.answered p hp).2, fun _ _ => rfl, List.Sublist.refl _, fun hr => ?_⟩
      exact absurd (hr.symm.trans (hloopsInv.recvRunning hl rfl)) Bool.false_ne_true
    case h_2 hfind =>
      obtain ⟨cur, frames, h⟩ := hinv.stream hf
      obtain ⟨n, r, rfl, rfl, -, -⟩ := h.loop _ hl
      obtain ⟨hmem, -, -, hseq, -⟩ := hinv.current h
      -- the handler is there
      refine absurd ?_ (List.find?_eq_none.mp hfind n hmem)
      simpa using hseq.symm
  | readBody header request =>
    have hf := hinv.works _ hl trivial
    rw [recvStep] at hs
    simp only at hs
    split_ifs at hs with hok hshort
    all_goals cases hs
    · refine hinv.setLoop hloopsInv hl rfl rfl hinv.ids rfl rfl rfl id (fun _ => hkeeps)
        (fun _ => hf) False.elim fun _ cur frames h => ?_
      obtain ⟨r, rfl, rfl, hinbound, hatt⟩ := h.loop _ hl
      obtain ⟨hmem, hans, -, -, hbody, hattach⟩ := hinv.current h
      have hne : ∀ p ∈ frames, p.1 ≠ request := by
        intro p hp heq
        have hnodup := (List.nodup_cons.mp h.nodup).1
        exact hnodup (List.mem_map.mpr ⟨p, hp, heq⟩)
      refine ⟨some (request, r), frames, ⟨r, rfl, rfl, ?_, ?_, ?_⟩, List.Sublist.refl _,
        fun p hp => (h.answered p hp).2, fun p hp => ?_, List.Sublist.refl _, fun hr => ?_⟩
      · simp only [hbody, hattach, hinbound]
        rw [← List.drop_drop, List.drop_left, List.drop_left]
      · simp only [hbody, hinbound]
        rw [List.take_left]
      · simp only [Function.update_self, hbody, hinbound]
        rw [List.drop_left, hattach, List.take_left]
        exact readAttachment_eq rfl hatt
      · simp only [Function.update_of_ne (hne p hp)]
      · exact absurd (hr.symm.trans (hloopsInv.recvRunning hl rfl)) Bool.false_ne_true
    · exact hinv.fail hloopsInv hl rfl .io
  | notify header request buffer =>
    cases hs
    have hf := hinv.works _ hl trivial
    obtain ⟨hloops, hrunning, -, htable, hcalls⟩ := complete_loops
      (s.setLoop (.notify header request buffer) (.erase header)) request
      (.response buffer header.errCode (s.handlers request).buffer)
    obtain ⟨hrequests, hanswers, hfailed, hinbound⟩ := complete_stream
      (s.setLoop (.notify header request buffer) (.erase header)) request
      (.response buffer header.errCode (s.handlers request).buffer)
    refine hinv.setLoop hloopsInv hl rfl hloops (htable ▸ hinv.ids) hrequests hcalls hanswers
      (fun h => hfailed ▸ h) (fun _ => htable ▸ hkeeps) (fun _ => hfailed.trans hf) False.elim
      fun _ cur frames h => ?_
    obtain ⟨r, rfl, hheader, hin, -, -⟩ := h.loop _ hl
    refine ⟨some (request, r), frames, ⟨request, r, rfl, hheader, hinbound.trans hin⟩,
      List.Sublist.refl _, fun p hp => htable ▸ (h.answered p hp).2,
      fun p _ => complete_buffer _ _ _ _, List.Sublist.refl _, fun hr => ?_⟩
    exact absurd (hr.symm.trans (hrunning.trans (hloopsInv.recvRunning hl rfl))) Bool.false_ne_true
  | erase header =>
    cases hs
    have hf := hinv.works _ hl trivial
    obtain ⟨cur, frames, h⟩ := hinv.stream hf
    obtain ⟨n, r, rfl, rfl, -⟩ := h.loop _ hl
    obtain ⟨hmem, hans, -, hseq, -⟩ := hinv.current h
    -- only the handler of the answer goes
    have hstays : ∀ m ∈ s.table, m ≠ n → m ∈ (s.eraseHandler r.header.seqNum).table := by
      intro m hm hne
      refine List.mem_filter.mpr ⟨hm, decide_eq_true fun hid => hne ?_⟩
      exact hinv.eq_of_id hm hmem (hid.trans hseq)
    refine hinv.setLoop hloopsInv hl rfl rfl (nodup_map_filter hinv.ids _) rfl rfl rfl id
      (fun _ m hm hm' => hstays m hm (hinv.ne_of_owes hans hm')) (fun _ => hf) ?_
      fun _ cur' frames' h' => ?_
    · split_ifs <;> exact False.elim
    · obtain ⟨n', r', rfl, hheader, hinbound⟩ := h'.loop _ hl
      have hid : requestId n' = requestId n := by
        rw [← (hinv.current h').2.2.2.1, ← hheader, hseq]
      obtain rfl := hinv.eq_of_id (hinv.current h').1 hmem hid
      refine ⟨none, frames', ?_, List.sublist_cons_self _ _, fun p hp => ?_, fun _ _ => rfl,
        List.Sublist.refl _, fun _ => ⟨rfl, hinbound⟩⟩
      · split_ifs <;> exact ⟨rfl, hinbound⟩
      · refine hstays p.1 (h'.answered p (List.mem_cons_of_mem _ hp)).2 fun heq => ?_
        exact (List.nodup_cons.mp h'.nodup).1 (List.mem_map.mpr ⟨p, hp, heq⟩)
  | store =>
    cases hs
    refine hinv.setLoop hloopsInv hl rfl rfl hinv.ids rfl rfl rfl id (fun _ => hkeeps) False.elim
      False.elim fun _ cur frames h => ?_
    exact ⟨cur, frames, trivial, List.Sublist.refl _, fun p hp => (h.answered p hp).2,
      fun _ _ => rfl, List.Sublist.refl _, fun _ => h.loop _ hl⟩
  | failed ec =>
    cases hs
    refine hinv.setLoop hloopsInv hl rfl rfl hinv.ids rfl rfl rfl id (fun _ => hkeeps) False.elim
      (fun _ => hinv.broken _ hl trivial) fun hf => ?_
    exact absurd (hf.symm.trans (hinv.broken _ hl trivial)) Bool.false_ne_true
  | recheck =>
    cases hs
    split_ifs with htable
    · exact hinv.setInactive (fun g hg => .inl (List.mem_of_mem_erase hg)) (.inl rfl) rfl rfl rfl
        rfl rfl (fun _ => rfl) id
    · refine hinv.setInactive (fun g hg => ?_) (.inl rfl) rfl rfl rfl rfl rfl (fun _ => rfl) id
      rcases herase hg with rfl | hg
      · exact .inr (.inr ⟨rfl, False.elim⟩)
      · exact .inl hg
  | compareExchange =>
    rw [recvStep] at hs
    split_ifs at hs with hrunning
    all_goals cases hs
    · exact hinv.setInactive (fun g hg => .inl (List.mem_of_mem_erase hg)) (.inl rfl) rfl rfl rfl
        rfl rfl (fun _ => rfl) id
    · refine hinv.setInactive (fun g hg => ?_) (.inl rfl) rfl rfl rfl rfl rfl (fun _ => rfl)
        fun h => absurd h.symm Bool.false_ne_true
      rcases herase hg with rfl | hg
      · exact .inr (.inl ⟨rfl, Bool.eq_false_iff.mpr hrunning⟩)
      · exact .inl hg
  | closeSocketAsync ec =>
    cases hs
    refine hinv.setInactive (fun g hg => ?_) (.inl rfl) rfl rfl rfl rfl rfl (fun _ => rfl) id
    rcases herase hg with rfl | hg
    · exact .inr (.inr ⟨rfl, fun _ => hinv.broken _ hl trivial⟩)
    · exact .inl hg
  | takeHandlers ec =>
    cases hs
    refine hinv.setInactive (fun g hg => ?_) (.inr ⟨rfl, hinv.broken _ hl trivial⟩) rfl rfl rfl rfl
      rfl (fun _ => rfl) id
    rcases herase hg with rfl | hg
    · exact .inr (.inr ⟨rfl, False.elim⟩)
    · exact .inl hg
  | localError requests ec =>
    cases requests with
    | nil =>
      cases hs
      exact hinv.setInactive (fun g hg => .inl (List.mem_of_mem_erase hg)) (.inl rfl) rfl rfl rfl
        rfl rfl (fun _ => rfl) id
    | cons n requests =>
      cases hs
      obtain ⟨hloops, hrunning, -, htable, hcalls⟩ := complete_loops
        (s.setLoop (.localError (n :: requests) ec) (.localError requests ec)) n (.localError ec)
      obtain ⟨hrequests, hanswers, hfailed, hinbound⟩ := complete_stream
        (s.setLoop (.localError (n :: requests) ec) (.localError requests ec)) n (.localError ec)
      refine hinv.setInactive (fun g hg => ?_) (.inl htable) hrequests hcalls hanswers hfailed
        hinbound (complete_buffer _ _ _) fun hr => hrunning ▸ hr
      rw [hloops] at hg
      rcases herase hg with rfl | hg
      · exact .inr (.inr ⟨rfl, False.elim⟩)
      · exact .inl hg

/-! ### Answers -/

theorem wires_append (frames : List (ℕ × Response)) (n : ℕ) (r : Response) :
    wires (frames ++ [(n, r)]) = wires frames ++ wire r := by
  rw [wires, List.flatMap_append, List.flatMap_singleton]
  rfl

theorem Loop.At.append (h : l.At s cur frames) {r : Response}
    (hinbound : s'.inbound = s.inbound ++ wire r) (hhandlers : s'.handlers = s.handlers) :
    l.At s' cur (frames ++ [(n, r)]) := by
  cases l with
  | readHead => exact ⟨h.1, by rw [hinbound, h.2, wires_append]⟩
  | store => exact ⟨h.1, by rw [hinbound, h.2, wires_append]⟩
  | lookup header =>
    obtain ⟨m, r', rfl, hheader, hin, hatt⟩ := h
    refine ⟨m, r', rfl, hheader, ?_, hhandlers ▸ hatt⟩
    rw [hinbound, hin, wires_append, List.append_assoc, List.append_assoc]
  | readBody header m =>
    obtain ⟨r', rfl, hheader, hin, hatt⟩ := h
    refine ⟨r', rfl, hheader, ?_, hhandlers ▸ hatt⟩
    rw [hinbound, hin, wires_append, List.append_assoc, List.append_assoc]
  | notify header m buffer =>
    obtain ⟨r', rfl, hheader, hin, hbody, hatt⟩ := h
    exact ⟨r', rfl, hheader, by rw [hinbound, hin, wires_append], hbody, hhandlers ▸ hatt⟩
  | erase header =>
    obtain ⟨m, r', rfl, hheader, hin⟩ := h
    exact ⟨m, r', rfl, hheader, by rw [hinbound, hin, wires_append]⟩
  | failed ec => exact h
  | _ => exact trivial

theorem answers_response {errCode : UInt8} {body attachment : Bytes}
    (hbody : body.length ≤ UINT32_MAX) (hattachment : attachment.length ≤ UINT32_MAX) :
    Answers n (response n errCode body attachment) := by
  rw [UINT32_MAX] at hbody hattachment
  refine ⟨rfl, ?_, ?_⟩
  · rw [response, UInt32.toNat_ofNat', Nat.mod_eq_of_lt (by omega)]
  · rw [response, UInt32.toNat_ofNat', Nat.mod_eq_of_lt (by omega)]

theorem matchInv_answer (hinv : MatchInv s) {errCode : UInt8} {body attachment : Bytes}
    (hmeets : Meets s (.answer n errCode body attachment))
    (hs : answer s n errCode body attachment = some s') : MatchInv s' := by
  obtain ⟨⟨hwritten, hnone, hbody, hattachment⟩, hs⟩ := Option.ite_none_right_eq_some.mp hs
  obtain rfl := Option.some.inj hs
  have hne : ∀ {m : ℕ} {r : Response}, s.answers m = some r → m ≠ n := by
    rintro m r hr rfl
    rw [hnone] at hr
    cases hr
  exact
    { ids := hinv.ids
      begun := hinv.begun
      answers := fun m r hr => by
        by_cases heq : m = n
        · subst heq
          simp only [Function.update_self, Option.some.injEq] at hr
          exact ⟨hwritten, hr ▸ answers_response hbody hattachment⟩
        · simp only [Function.update_of_ne heq] at hr
          exact hinv.answers m r hr
      owes := fun hf m hm => by
        refine hinv.owes hf m (hm.imp id fun h => ⟨h.1, ?_⟩)
        by_cases heq : m = n
        · exact heq ▸ hnone
        · have hm := h.2
          simp only [Function.update_of_ne heq] at hm
          exact hm
      stream := fun hf => by
        obtain ⟨cur, frames, h⟩ := hinv.stream hf
        refine ⟨cur, frames ++ [(n, response n errCode body attachment)], ⟨?_, ?_, ?_, ?_, ?_⟩⟩
        · intro p hp
          rw [← List.append_assoc, List.mem_append, List.mem_singleton] at hp
          rcases hp with hp | rfl
          · obtain ⟨hans, hmem⟩ := h.answered p hp
            exact ⟨by simp only [Function.update_of_ne (hne hans), hans], hmem⟩
          · exact ⟨Function.update_self _ _ _, hinv.owes hf n (.inr ⟨hwritten, hnone⟩)⟩
        · rw [← List.append_assoc, List.map_append, List.map_singleton]
          refine List.nodup_append.mpr ⟨h.nodup, List.nodup_singleton _, ?_⟩
          intro m hm k hk
          obtain ⟨p, hp, rfl⟩ := List.mem_map.mp hm
          rw [List.mem_singleton.mp hk]
          exact hne (h.answered p hp).1
        · intro p hp hr
          rcases List.mem_append.mp hp with hp | hp
          · exact h.buffer p hp hr
          · rw [List.mem_singleton.mp hp] at hr ⊢
            exact hmeets hr
        · exact fun l hl => (h.loop l hl).append rfl rfl
        · exact fun hr => ⟨(h.idle hr).1, by rw [(h.idle hr).2, wires_append]⟩
      works := hinv.works
      broken := hinv.broken }

theorem matchInv_sendRequest (hinv : MatchInv s) (buffer : Bytes) :
    MatchInv (sendRequest s buffer) := by
  have hnone := hinv.begun s.requests le_rfl
  have hne : ∀ {m : ℕ} {r : Response}, s.answers m = some r → m ≠ s.requests :=
    fun h => (hinv.lt_of_answers h).ne
  exact
    { ids := hinv.ids
      begun := fun n hn => by
        have hlt : s.requests < n := hn
        simp only [sendRequest, State.setCall, Function.update_of_ne hlt.ne']
        exact hinv.begun n hlt.le
      answers := fun n r hr => by
        obtain ⟨hw, hright⟩ := hinv.answers n r hr
        refine ⟨?_, hright⟩
        simp only [sendRequest, State.setCall, Function.update_of_ne (hne hr)]
        exact hw
      owes := fun hf n hn => by
        by_cases heq : n = s.requests
        · simp only [State.Owes, sendRequest, State.setCall, heq, Function.update_self] at hn
          exact (hn.elim id And.left).elim
        · simp only [State.Owes, sendRequest, State.setCall, Function.update_of_ne heq] at hn
          exact hinv.owes hf n hn
      stream := fun hf => by
        obtain ⟨cur, frames, h⟩ := hinv.stream hf
        have hbuffer : ∀ p ∈ cur.toList ++ frames,
            (Function.update s.handlers s.requests ⟨buffer, false⟩ p.1).buffer =
              (s.handlers p.1).buffer :=
          fun p hp => by rw [Function.update_of_ne (hne (h.answered p hp).1)]
        refine ⟨cur, frames, ⟨h.answered, h.nodup, fun p hp hr => ?_, fun l hl => ?_, h.idle⟩⟩
        · exact (hbuffer p (List.mem_append_right _ hp)).trans (h.buffer p hp hr)
        · refine (h.loop l hl).congr rfl fun n hn => ?_
          obtain ⟨p, hp, rfl⟩ := Option.map_eq_some_iff.mp hn
          exact hbuffer p (List.mem_append_left _ (Option.mem_toList.mpr hp))
      works := hinv.works
      broken := hinv.broken }

theorem matchInv_step (hinv : MatchInv s) (hloopsInv : LoopsInv s) {a : Action}
    (hmeets : Meets s a) (hs : step s a = some s') : MatchInv s' := by
  cases a with
  | sendRequest buffer =>
    cases hs
    exact matchInv_sendRequest hinv buffer
  | call n result => exact matchInv_callStep hinv hs
  | recv l ok =>
    obtain ⟨hl, hs⟩ := Option.ite_none_right_eq_some.mp hs
    exact matchInv_recvStep hinv hloopsInv hl hs
  | answer n errCode body attachment => exact matchInv_answer hinv hmeets hs
  | timeout =>
    cases hs
    exact hinv.setInactive (fun _ hg => .inl hg) (.inl rfl) rfl rfl rfl rfl rfl (fun _ => rfl) id
  | close =>
    cases hs
    exact hinv.setInactive (fun _ hg => .inl hg) (.inl rfl) rfl rfl rfl rfl rfl (fun _ => rfl) id

theorem matchInv_initial : MatchInv initial where
  ids := List.nodup_nil
  begun _ _ := rfl
  answers := nofun
  owes _ _ hn := (hn.elim id And.left).elim
  stream _ := ⟨none, [], ⟨nofun, List.nodup_nil, nofun, nofun, fun _ => ⟨rfl, rfl⟩⟩⟩
  works := nofun
  broken := nofun

end Lemmas

end Yalantinglibs.CoroRpc.Client
