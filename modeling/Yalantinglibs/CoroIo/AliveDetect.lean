import Mathlib.Data.Int.Notation
import Mathlib.Data.Nat.Notation
import Mathlib.Tactic.Common
import Yalantinglibs.Data.TransitionSystem

/-!
# Detecting that a host is alive

`coro_io/client_pool.hpp`, `alive_detect` and what goes along with it. A pool whose host does not
answer is marked dead, and the load balancer passes it over until it is marked alive again. Each
`get_client` that is out of its retries starts a coroutine that probes the host, and the coroutines
agree by `is_alive_` on which of them goes on.

The coroutines run in turns, from one access to what they share to the next. What
`free_client_count` returns is up to the queues, and whether a connection succeeds is up to the
host; both are part of a turn here. A pool is destroyed when nobody holds it; a coroutine that waits
between two probes does not.

## Main definitions

* `Phase`, `Phase.step` — where `alive_detect` stands, and its steps
* `clientPool` — the turns of the coroutines of one pool
* `Phase.Probing` — a coroutine has not yet decided to return

## Main results

* `exists_probing_of_reaches` — a pool that is marked dead is being probed
* `marks_alive_of_connected` — a probe that succeeds marks the pool alive
* `dead_pool_is_probed` — both together
-/

set_option autoImplicit false

namespace Yalantinglibs.CoroIo

open TransitionSystem

/-- Where `alive_detect` stands: each phase but the last ends with an access to what is shared. -/
inductive Phase
  /-- before `watcher.lock` -/
  | start
  /-- before the first test of `free_client_count` -/
  | count
  /-- before the compare-exchange of `is_alive_` -/
  | exchange
  /-- before the second test of `free_client_count` -/
  | recheck
  /-- before `is_alive_` is set after the second test -/
  | restore
  /-- before `init_config` of the client -/
  | initConfig
  /-- in `reconnect_impl` -/
  | connecting
  /-- connected, before `collect_free_client` -/
  | collecting
  /-- before `is_alive_` is set after `collect_free_client` -/
  | mark
  /-- before the test of `is_alive_` behind a probe that has failed -/
  | failed
  /-- waiting for the next probe, without the pool -/
  | sleeping
  /-- before the test of `is_alive_` behind the wait -/
  | woken
  | returned
deriving DecidableEq

/-- What a step finds: the number of free clients, whether `init_config`, a connection or the
collection of a client succeeds, or nothing else. -/
inductive Finding
  | none
  | freeClients (n : ℕ)
  | outcome (ok : Bool)

/-- What the coroutines share: `is_alive_`, and whether the pool exists. -/
structure Shared where
  isAlive : Bool
  present : Bool
deriving DecidableEq

/-- A step of `alive_detect`. -/
def Phase.step (hostAliveDetectDuration : ℤ) (s : Shared) :
    Phase → Finding → Option (Phase × Shared)
  | .start, .none => some (if s.present then .count else .returned, s)
  | .count, .freeClients n =>
    some (if hostAliveDetectDuration ≠ 0 ∧ n = 0 then .exchange else .returned, s)
  | .exchange, .none =>
    if s.isAlive then some (.recheck, { s with isAlive := false })
    else
      -- other alive detect coroutine is running
      some (.returned, s)
  | .recheck, .freeClients n => some (if n > 0 then .restore else .initConfig, s)
  | .restore, .none => some (.returned, { s with isAlive := true })
  | .initConfig, .outcome ok => some (if ok then .connecting else .returned, s)
  | .connecting, .outcome ok => some (if ok then .collecting else .failed, s)
  | .collecting, .outcome collected =>
    some (.mark, { s with isAlive := s.isAlive || collected })
  | .mark, .none => some (.returned, { s with isAlive := true })
  | .failed, .none => some (if s.isAlive then .returned else .sleeping, s)
  | .sleeping, .none => some (if s.present then .woken else .returned, s)
  | .woken, .none => some (if s.isAlive then .returned else .connecting, s)
  | _, _ => none

/-- The coroutine holds the pool. -/
def Phase.holdsPool : Phase → Bool
  | .start | .sleeping | .returned => false
  | _ => true

/-- The coroutine has not yet decided to return without having marked the pool alive. -/
def Phase.Probing : Phase → Prop
  | .recheck | .restore | .initConfig | .connecting | .collecting | .mark | .failed | .sleeping
  | .woken => True
  | .start | .count | .exchange | .returned => False

/-- A pool with the coroutines of `alive_detect`. -/
structure ClientPool where
  shared : Shared
  detectors : List Phase

/-- What happens next. -/
inductive PoolTurn
  /-- `reconnect` of a `get_client` is out of its retries: it starts `alive_detect` -/
  | reconnectFails
  /-- `collect_free_client` of a request, which does or does not take the client -/
  | collectFreeClient (collected : Bool)
  /-- the last one to hold the pool lets it go -/
  | destroy
  /-- a step of a coroutine -/
  | detect (k : ℕ) (finding : Finding)

/-- The turns of a pool. -/
def ClientPool.step (hostAliveDetectDuration : ℤ) (s : ClientPool) : PoolTurn → Option ClientPool
  | .reconnectFails => some { s with detectors := s.detectors ++ [.start] }
  | .collectFreeClient collected =>
    if s.shared.present then
      some { s with shared := { s.shared with isAlive := s.shared.isAlive || collected } }
    else none
  | .destroy =>
    if s.detectors.any Phase.holdsPool then none
    else some { s with shared := { s.shared with present := false } }
  | .detect k finding =>
    s.detectors[k]?.bind fun p => (p.step hostAliveDetectDuration s.shared finding).map fun next =>
      ⟨next.2, s.detectors.set k next.1⟩

/-- A pool with so much time between two probes. -/
def clientPool (hostAliveDetectDuration : ℤ) : TransitionSystem ClientPool PoolTurn where
  init := ⟨⟨true, true⟩, []⟩
  step := ClientPool.step hostAliveDetectDuration

/-- `init_config` of a client does not fail, with a copy of a configuration that has been used. -/
def InitSucceeds (s : ClientPool) : PoolTurn → Prop
  | .detect k (.outcome ok) => s.detectors[k]? = some .initConfig → ok = true
  | _ => True

section Steps

variable {duration : ℤ} {s s' : ClientPool} {sh sh' : Shared} {p p' : Phase} {finding : Finding}
  {k : ℕ}

/-- A coroutine that leaves the pool marked dead goes on with its probes, if it has made the mark or
has been probing before. -/
theorem probing_of_step (h : p.step duration sh finding = some (p', sh'))
    (hinit : ∀ ok, p = .initConfig → finding = .outcome ok → ok = true)
    (hpresent : sh.present = true) (hdead : sh'.isAlive = false)
    (hp : p.Probing ∨ sh.isAlive = true) : p'.Probing := by
  -- the phases in which the mark does not change
  have hstay (hsh : sh' = sh) : p.Probing := by
    obtain hp | halive := hp
    · exact hp
    · rw [hsh, halive] at hdead
      cases hdead
  cases p with
  | start =>
    cases finding <;> cases h
    exact (hstay rfl).elim
  | count =>
    cases finding <;> cases h
    exact (hstay rfl).elim
  | exchange =>
    cases finding with
    | none =>
      rw [Phase.step] at h
      split_ifs at h
      · cases h
        trivial
      · cases h
        exact (hstay rfl).elim
    | freeClients n => cases h
    | outcome ok => cases h
  | recheck =>
    cases finding <;> cases h
    split <;> trivial
  | restore =>
    cases finding <;> cases h
    cases hdead
  | initConfig =>
    cases finding <;> cases h
    rw [hinit _ rfl rfl, if_pos rfl]
    trivial
  | connecting =>
    cases finding <;> cases h
    split <;> trivial
  | collecting =>
    cases finding <;> cases h
    trivial
  | mark =>
    cases finding <;> cases h
    cases hdead
  | failed =>
    cases finding <;> cases h
    rw [if_neg (by rw [hdead]; exact Bool.false_ne_true)]
    trivial
  | sleeping =>
    cases finding <;> cases h
    rw [if_pos hpresent]
    trivial
  | woken =>
    cases finding <;> cases h
    rw [if_neg (by rw [hdead]; exact Bool.false_ne_true)]
    trivial
  | returned => cases finding <;> cases h

/-- A coroutine does not destroy the pool, nor bring it back. -/
theorem present_of_step (h : p.step duration sh finding = some (p', sh')) :
    sh'.present = sh.present := by
  cases p with
  | exchange =>
    cases finding with
    | none =>
      rw [Phase.step] at h
      split_ifs at h
      · cases h
        rfl
      · cases h
        rfl
    | freeClients n => cases h
    | outcome ok => cases h
  | _ => cases finding <;> cases h <;> rfl

/-- If the pool is marked dead, there is a coroutine that is probing the host. -/
def ClientPool.Probed (s : ClientPool) : Prop :=
  s.shared.present = true → s.shared.isAlive = false → ∃ p ∈ s.detectors, p.Probing

theorem probed_of_step (hs : s.Probed) {turn : PoolTurn} (hinit : InitSucceeds s turn)
    (h : s.step duration turn = some s') : s'.Probed := by
  cases turn with
  | reconnectFails =>
    cases h
    intro hpresent hdead
    obtain ⟨p, hp, hprobing⟩ := hs hpresent hdead
    exact ⟨p, List.mem_append_left _ hp, hprobing⟩
  | collectFreeClient collected =>
    rw [ClientPool.step] at h
    split_ifs at h with hpresent
    cases h
    intro _ hdead
    exact hs hpresent (Bool.or_eq_false_iff.mp hdead).1
  | destroy =>
    rw [ClientPool.step] at h
    split_ifs at h
    cases h
    intro hpresent
    cases hpresent
  | detect k finding =>
    obtain ⟨p, hp, hnext⟩ := Option.bind_eq_some_iff.mp h
    obtain ⟨⟨p', sh'⟩, hstep, rfl⟩ := Option.map_eq_some_iff.mp hnext
    intro hpresent' hdead
    have hpresent : s.shared.present = true := (present_of_step hstep).symm.trans hpresent'
    have hk : k < s.detectors.length := (List.getElem?_eq_some_iff.mp hp).1
    have hmem : p' ∈ s.detectors.set k p' := List.mem_set hk p'
    have hsucceeds : ∀ ok, p = .initConfig → finding = .outcome ok → ok = true := by
      rintro ok rfl rfl
      exact hinit hp
    by_cases halive : s.shared.isAlive = true
    · exact ⟨p', hmem, probing_of_step hstep hsucceeds hpresent hdead (.inr halive)⟩
    · -- the pool has been dead before: the coroutine that probes is this one, or stands still
      obtain ⟨q, hq, hprobing⟩ := hs hpresent (Bool.eq_false_iff.mpr halive)
      obtain ⟨j, hj, rfl⟩ := List.getElem_of_mem hq
      by_cases hjk : j = k
      · have hqp : s.detectors[j] = p := by
          subst hjk
          exact Option.some.inj ((List.getElem?_eq_getElem hj).symm.trans hp)
        rw [hqp] at hprobing
        exact ⟨p', hmem, probing_of_step hstep hsucceeds hpresent hdead (.inl hprobing)⟩
      · refine ⟨s.detectors[j], ?_, hprobing⟩
        apply List.mem_of_getElem? (i := j)
        rw [List.getElem?_set_ne (Ne.symm hjk), List.getElem?_eq_getElem hj]

/-- A pool that is marked dead is being probed, in any order of the turns. -/
theorem exists_probing_of_reaches (h : (clientPool duration).Reaches InitSucceeds s) :
    s.Probed := by
  apply h.invariant
  · intro _ hdead
    cases hdead
  · intro s turn s' hs hinit hstep
    exact probed_of_step hs hinit hstep

/-! ### A probe that succeeds -/

/-- The steps that a coroutine that has connected takes until it returns. -/
def Phase.stepsLeft : Phase → ℕ
  | .collecting => 2
  | .mark => 1
  | _ => 0

/-- The turn is one of the coroutine. -/
def PoolTurn.isOf (k : ℕ) : PoolTurn → Bool
  | .detect j _ => j = k
  | _ => false

/-- A coroutine that has connected comes nearer to its end with each step, and marks the pool alive
with the last one. -/
theorem connected_of_step (h : p.step duration sh finding = some (p', sh')) (hp : p.stepsLeft ≠ 0) :
    p'.stepsLeft + 1 = p.stepsLeft ∧
      (p'.stepsLeft = 0 → p' = .returned ∧ sh'.isAlive = true) := by
  cases p with
  | collecting =>
    cases finding <;> cases h
    exact ⟨rfl, fun hleft => absurd hleft Nat.one_ne_zero⟩
  | mark =>
    cases finding <;> cases h
    exact ⟨rfl, fun _ => ⟨rfl, rfl⟩⟩
  | _ => exact absurd rfl hp

/-- The turns of others keep a coroutine where it is. -/
theorem phase_of_poolStep {turn : PoolTurn} (h : s.step duration turn = some s')
    (hk : s.detectors[k]? = some p) (hturn : turn.isOf k = false) : s'.detectors[k]? = some p := by
  have hlt : k < s.detectors.length := (List.getElem?_eq_some_iff.mp hk).1
  cases turn with
  | reconnectFails =>
    cases h
    rw [List.getElem?_append_left hlt, hk]
  | collectFreeClient collected =>
    rw [ClientPool.step] at h
    split_ifs at h
    cases h
    exact hk
  | destroy =>
    rw [ClientPool.step] at h
    split_ifs at h
    cases h
    exact hk
  | detect j finding =>
    have hjk : j ≠ k := of_decide_eq_false hturn
    obtain ⟨q, -, hnext⟩ := Option.bind_eq_some_iff.mp h
    obtain ⟨next, -, rfl⟩ := Option.map_eq_some_iff.mp hnext
    rw [List.getElem?_set_ne hjk, hk]

/-- Its own turns are steps. -/
theorem step_of_poolStep {turn : PoolTurn} (h : s.step duration turn = some s')
    (hk : s.detectors[k]? = some p) (hturn : turn.isOf k = true) :
    ∃ finding p', turn = .detect k finding ∧
      p.step duration s.shared finding = some (p', s'.shared) ∧ s'.detectors[k]? = some p' := by
  cases turn with
  | detect j finding =>
    obtain rfl : j = k := of_decide_eq_true hturn
    obtain ⟨q, hq, hnext⟩ := Option.bind_eq_some_iff.mp h
    obtain ⟨⟨q', sh'⟩, hstep, rfl⟩ := Option.map_eq_some_iff.mp hnext
    cases hk.symm.trans hq
    exact ⟨finding, q', rfl, hstep,
      List.getElem?_set_self (List.getElem?_eq_some_iff.mp hk).1⟩
  | _ => cases hturn

/-- The pool after some turns. -/
abbrev ClientPool.after (duration : ℤ) (s : ClientPool) (turns : List PoolTurn) :
    Option ClientPool :=
  (clientPool duration).runIf (fun _ _ => True) s turns

theorem after_cons (s : ClientPool) (turn : PoolTurn) (turns : List PoolTurn) :
    s.after duration (turn :: turns) = (s.step duration turn).bind fun s => s.after duration turns :=
  if_pos trivial

/-- A coroutine that has returned has no more turns. -/
theorem countP_of_returned {turns : List PoolTurn} (hrun : s.after duration turns = some s')
    (hk : s.detectors[k]? = some .returned) : turns.countP (PoolTurn.isOf k) = 0 := by
  induction turns generalizing s with
  | nil => rfl
  | cons turn turns ih =>
    rw [after_cons] at hrun
    obtain ⟨s₁, hstep, hrest⟩ := Option.bind_eq_some_iff.mp hrun
    cases hturn : turn.isOf k with
    | false =>
      rw [List.countP_cons_of_neg (by rw [hturn]; exact Bool.false_ne_true)]
      exact ih hrest (phase_of_poolStep hstep hk hturn)
    | true =>
      obtain ⟨finding, p', -, hp', -⟩ := step_of_poolStep hstep hk hturn
      cases finding <;> cases hp'

/-- After any turns a coroutine that has connected has steps left, or it has taken all of them and
marked the pool alive with the last one. -/
theorem marks_alive_of_connected {turns : List PoolTurn} (hrun : s.after duration turns = some s')
    (hk : s.detectors[k]? = some p) (hp : p.stepsLeft ≠ 0) :
    (∃ p', s'.detectors[k]? = some p' ∧ p'.stepsLeft ≠ 0 ∧
        p'.stepsLeft + turns.countP (PoolTurn.isOf k) = p.stepsLeft) ∨
      turns.countP (PoolTurn.isOf k) = p.stepsLeft ∧
      ∃ pre finding post s'', turns = pre ++ .detect k finding :: post ∧
        s.after duration (pre ++ [.detect k finding]) = some s'' ∧
        s''.detectors[k]? = some .returned ∧ s''.shared.isAlive = true := by
  induction turns generalizing s p with
  | nil =>
    cases hrun
    exact .inl ⟨p, hk, hp, rfl⟩
  | cons turn turns ih =>
    rw [after_cons] at hrun
    obtain ⟨s₁, hstep, hrest⟩ := Option.bind_eq_some_iff.mp hrun
    -- a run that marks the pool alive does so with a turn more in front
    have hcons : (∃ pre finding post s'', turns = pre ++ .detect k finding :: post ∧
          s₁.after duration (pre ++ [.detect k finding]) = some s'' ∧
          s''.detectors[k]? = some .returned ∧ s''.shared.isAlive = true) →
        ∃ pre finding post s'', turn :: turns = pre ++ .detect k finding :: post ∧
          s.after duration (pre ++ [.detect k finding]) = some s'' ∧
          s''.detectors[k]? = some .returned ∧ s''.shared.isAlive = true := by
      rintro ⟨pre, finding, post, s'', rfl, hafter, hlast⟩
      refine ⟨turn :: pre, finding, post, s'', rfl, ?_, hlast⟩
      rw [List.cons_append, after_cons, hstep, Option.bind_some, hafter]
    cases hturn : turn.isOf k with
    | false =>
      rw [List.countP_cons_of_neg (by rw [hturn]; exact Bool.false_ne_true)]
      exact (ih hrest (phase_of_poolStep hstep hk hturn) hp).imp_right (And.imp_right hcons)
    | true =>
      rw [List.countP_cons_of_pos hturn]
      obtain ⟨finding, p', rfl, hp', hk'⟩ := step_of_poolStep hstep hk hturn
      obtain ⟨hleft, hmark⟩ := connected_of_step hp' hp
      by_cases hlast : p'.stepsLeft = 0
      · obtain ⟨rfl, halive⟩ := hmark hlast
        rw [countP_of_returned hrest hk', ← hleft, hlast]
        refine .inr ⟨rfl, [], finding, turns, s₁, rfl, ?_, hk', halive⟩
        rw [List.nil_append, after_cons, hstep]
        rfl
      · rw [← hleft]
        obtain ⟨q, hq, hne, hcount⟩ | ⟨hcount, hmarked⟩ := ih hrest hk' hlast
        · exact .inl ⟨q, hq, hne, by rw [← hcount]; rfl⟩
        · exact .inr ⟨by rw [hcount], hcons hmarked⟩

theorem step_detect {p' : Phase} {sh' : Shared} (hk : s.detectors[k]? = some p)
    (h : p.step duration s.shared finding = some (p', sh')) :
    s.step duration (.detect k finding) = some ⟨sh', s.detectors.set k p'⟩ := by
  rw [ClientPool.step, hk, Option.bind_some, h]
  rfl

/-- Nothing keeps a coroutine that has connected from its next step. -/
theorem exists_step_of_connected (hk : s.detectors[k]? = some p) (hp : p.stepsLeft ≠ 0) :
    ∃ finding s', s.step duration (.detect k finding) = some s' := by
  cases p with
  | collecting => exact ⟨.outcome true, _, step_detect hk rfl⟩
  | mark => exact ⟨.none, _, step_detect hk rfl⟩
  | _ => exact absurd rfl hp

/-- A pool that is marked dead is being probed. A probe that succeeds marks it alive: whatever else
happens, the coroutine can always take its next step until it has taken two, and with the second one
the pool is marked alive and the coroutine has returned. -/
theorem dead_pool_is_probed (h : (clientPool duration).Reaches InitSucceeds s) :
    (s.shared.present = true → s.shared.isAlive = false → ∃ p ∈ s.detectors, p.Probing) ∧
      ∀ k, s.detectors[k]? = some .connecting →
        ∃ s₁, s.step duration (.detect k (.outcome true)) = some s₁ ∧
          ∀ turns s₂, s₁.after duration turns = some s₂ →
            (turns.countP (PoolTurn.isOf k) < 2 ∧
              ∃ finding s₃, s₂.step duration (.detect k finding) = some s₃) ∨
            (turns.countP (PoolTurn.isOf k) = 2 ∧
              ∃ pre finding post s₃, turns = pre ++ .detect k finding :: post ∧
                s₁.after duration (pre ++ [.detect k finding]) = some s₃ ∧
                s₃.detectors[k]? = some .returned ∧ s₃.shared.isAlive = true) := by
  refine ⟨exists_probing_of_reaches h, fun k hk => ?_⟩
  have hlt : k < s.detectors.length := (List.getElem?_eq_some_iff.mp hk).1
  refine ⟨_, step_detect hk rfl, fun turns s₂ hrun => ?_⟩
  have hcollecting : (s.detectors.set k .collecting)[k]? = some .collecting :=
    List.getElem?_set_self hlt
  have hleft : Phase.collecting.stepsLeft = 2 := rfl
  obtain ⟨p', hk', hp', hcount⟩ | hmarked :=
    marks_alive_of_connected hrun hcollecting (Nat.succ_ne_zero 1)
  · exact .inl ⟨by omega, exists_step_of_connected hk' hp'⟩
  · exact .inr hmarked

/-- A `get_client` has failed, and the pool is marked dead by the coroutine that it has started.
While the coroutine goes on, its client is not taken, another `get_client` fails, and the coroutine
of that one starts. -/
theorem dead_pool_is_probed_first :
    (clientPool 30000).Reaches InitSucceeds ⟨⟨false, true⟩, [.connecting]⟩ ∧
      (∃ p ∈ [Phase.connecting], p.Probing) ∧
      ∃ s₁ : ClientPool, ∃ pre finding post s₃,
        [.detect 0 (.outcome false), .reconnectFails, .detect 1 .none, .detect 0 .none] =
          pre ++ .detect 0 finding :: post ∧
        s₁.after 30000 (pre ++ [.detect 0 finding]) = some s₃ ∧
        s₃.detectors[0]? = some .returned ∧ s₃.shared.isAlive = true := by
  have hreaches : (clientPool 30000).Reaches InitSucceeds ⟨⟨false, true⟩, [.connecting]⟩ := by
    have hstart : (clientPool 30000).Reaches InitSucceeds ⟨⟨true, true⟩, [.start]⟩ :=
      Reaches.step (a := PoolTurn.reconnectFails) .init trivial rfl
    have hcount : (clientPool 30000).Reaches InitSucceeds ⟨⟨true, true⟩, [.count]⟩ :=
      hstart.step (a := PoolTurn.detect 0 Finding.none) trivial rfl
    have hexchange : (clientPool 30000).Reaches InitSucceeds ⟨⟨true, true⟩, [.exchange]⟩ :=
      hcount.step (a := PoolTurn.detect 0 (Finding.freeClients 0)) trivial rfl
    have hrecheck : (clientPool 30000).Reaches InitSucceeds ⟨⟨false, true⟩, [.recheck]⟩ :=
      hexchange.step (a := PoolTurn.detect 0 Finding.none) trivial rfl
    have hinit : (clientPool 30000).Reaches InitSucceeds ⟨⟨false, true⟩, [.initConfig]⟩ :=
      hrecheck.step (a := PoolTurn.detect 0 (Finding.freeClients 0)) trivial rfl
    exact hinit.step (a := PoolTurn.detect 0 (Finding.outcome true)) (fun _ => rfl) rfl
  obtain ⟨hprobed, hmarks⟩ := dead_pool_is_probed hreaches
  obtain ⟨s₁, hstep, hruns⟩ := hmarks 0 rfl
  cases hstep
  obtain ⟨hfew, -⟩ | ⟨-, hmarked⟩ := hruns
    [.detect 0 (.outcome false), .reconnectFails, .detect 1 .none, .detect 0 .none] _ rfl
  · exact absurd hfew (by decide)
  · exact ⟨hreaches, hprobed rfl rfl, _, hmarked⟩

end Steps

end Yalantinglibs.CoroIo
