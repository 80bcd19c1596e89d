import Yalantinglibs.CoroIo.LoadBalancer

/-!
# Failover

`load_balancer::send_request` of `coro_io/load_balancer.hpp`. Hosts are taken from the policy until
the pool of one is alive, but no more than twice as many as there are, and one. Round robin comes to
every host on the way. Weighted round robin may be at thresholds that no host with a pool that is
alive reaches, for as many selections.

## Main definitions

* `Worker`, `Worker.callBody` — the policies
* `sendRequest` — the pool that a request is handed to
* `Worker.Covers` — when a pool that is alive is come to

## Main results

* `handsToAlive_iff_findIdx` — what is handed to, from the hosts that the policy gives
* `findIdx_le_iff_covers` — how many hosts are selected before one that is alive
* `sendRequest_alive_iff` — when the request is handed to a pool that is alive
-/

set_option autoImplicit false

namespace Yalantinglibs.CoroIo

open StepLoop LevelRounds WRRLoadbalancer

/-! ### The policies -/

structure RRLoadbalancer where
  index : UInt32

/-- `lb_worker`, without the policy that takes a host at random. -/
inductive Worker
  | rr (lb : RRLoadbalancer)
  | wrr (lb : WRRLoadbalancer)

inductive LoadBalanceAlgorithm
  | RR
  | WRR
  deriving DecidableEq

/-- The policy that `init` sets up. -/
def Worker.init (lba : LoadBalanceAlgorithm) (hosts : ℕ) (weights : List ℤ) :
    Except String Worker :=
  match lba with
  | .RR => .ok (.rr ⟨0⟩)
  | .WRR =>
    if hosts = 0 ∨ weights = [] then .error "host/weight list is empty!"
    else if hosts ≠ weights.length then .error "hosts count is not equal with weights!"
    else .ok (.wrr (create weights))

/-- The body of `operator()`, which gives the index of a pool. -/
def Worker.callBody (size : ℕ) : Worker → Worker ⊕ (ℕ × Worker)
  | .rr lb => .inr (lb.index.toNat % size, .rr ⟨lb.index + 1⟩)
  | .wrr lb =>
    match lb.selectBody with
    | .inl lb => .inl (.wrr lb)
    | .inr (selected, lb) =>
      let selected := if selected = -1 then 0 else selected
      .inr ((selected % size).toNat, .wrr { lb with wrrCurrent := selected })

/-- The policy is in this state after a number of calls. -/
def Reached (size : ℕ) (start w : Worker) : Prop :=
  ∃ hosts, Draws (Worker.callBody size) start hosts w

/-! ### The loop -/

section SendRequest

variable {π : Type} (pools : List π) (isAlive : π → Bool)

/-- The pool of a host is alive. -/
def aliveAt (host : ℕ) : Bool := pools[host]?.any isAlive

/-- The body of the loop of `send_request`, with what is still of a call of the policy. -/
def sendBody : ℕ × Worker → (ℕ × Worker) ⊕ (Option π × Worker)
  | (cnt, w) =>
    match w.callBody pools.length with
    | .inl w => .inl (cnt, w)
    | .inr (host, w) =>
      let clientPool := pools[host]?
      if !clientPool.any isAlive ∧ cnt + 1 ≤ pools.length * 2 then .inl (cnt + 1, w)
      else .inr (clientPool, w)

/-- The pool that `send_request` hands the request to. -/
def sendRequest (fuel : ℕ) (w : Worker) : Option (Option π × Worker) :=
  if 1 < pools.length then run (sendBody pools isAlive) fuel (0, w) else some (pools[0]?, w)

/-- The request is handed to a pool that is alive. -/
def HandsToAlive (w : Worker) : Prop :=
  ∃ fuel pool w', sendRequest pools isAlive fuel w = some (some pool, w') ∧ isAlive pool = true

variable {pools isAlive} {w w' : Worker} {hosts : List ℕ} {host cnt : ℕ}

/-- A call of the policy inside the loop. -/
theorem ends_sendBody_of_call (h : Ends (Worker.callBody pools.length) w (host, w')) :
    ∀ r, Ends (sendBody pools isAlive) (cnt, w) r ↔
      if !aliveAt pools isAlive host ∧ cnt + 1 ≤ pools.length * 2 then
        Ends (sendBody pools isAlive) (cnt + 1, w') r
      else (pools[host]?, w') = r := by
  intro r
  obtain ⟨n, hn⟩ := h
  induction n generalizing w with
  | zero => cases hn
  | succ n ih =>
    rw [run] at hn
    cases hbody : w.callBody pools.length with
    | inl v =>
      rw [hbody] at hn
      have hnext : sendBody pools isAlive (cnt, w) = .inl (cnt, v) := by
        rw [sendBody, hbody]
      rw [ends_iff_of_inl hnext]
      exact ih hn
    | inr q =>
      rw [hbody] at hn
      obtain rfl := Option.some.inj hn
      by_cases hgo : !aliveAt pools isAlive host ∧ cnt + 1 ≤ pools.length * 2
      · have hnext : sendBody pools isAlive (cnt, w) = .inl (cnt + 1, w') := by
          rw [sendBody, hbody]
          exact if_pos hgo
        rw [ends_iff_of_inl hnext, if_pos hgo]
      · have hleave : sendBody pools isAlive (cnt, w) = .inr (pools[host]?, w') := by
          rw [sendBody, hbody]
          exact if_neg hgo
        rw [ends_iff_of_inr hleave, if_neg hgo]

/-- The loop takes hosts as long as their pools are not alive and it may go on. -/
theorem ends_of_draws (h : Draws (Worker.callBody pools.length) w (hosts ++ [host]) w')
    (hdead : ∀ i ∈ hosts, aliveAt pools isAlive i = false)
    (hcnt : cnt + hosts.length ≤ pools.length * 2)
    (hlast : aliveAt pools isAlive host = true ∨ cnt + hosts.length = pools.length * 2) :
    Ends (sendBody pools isAlive) (cnt, w) (pools[host]?, w') := by
  induction hosts generalizing w cnt with
  | nil =>
    obtain ⟨v, hcall, hrest⟩ := draws_cons_iff.mp h
    obtain rfl := draws_nil_iff.mp hrest
    rw [ends_sendBody_of_call hcall, if_neg]
    rintro ⟨halive, hle⟩
    rcases hlast with hlast | hlast
    · rw [hlast] at halive
      cases halive
    · rw [List.length_nil] at hlast
      omega
  | cons first hosts ih =>
    obtain ⟨v, hcall, hrest⟩ := draws_cons_iff.mp h
    rw [List.length_cons] at hcnt hlast
    have hfirst := hdead first List.mem_cons_self
    rw [ends_sendBody_of_call hcall, if_pos ⟨by rw [hfirst]; rfl, by omega⟩]
    refine ih hrest (fun i hi => hdead i (List.mem_cons_of_mem _ hi)) (by omega) ?_
    exact hlast.imp_right fun heq => by omega

theorem handsToAlive_of_draws (hlen : 1 < pools.length)
    (h : Draws (Worker.callBody pools.length) w (hosts ++ [host]) w')
    (hdead : ∀ i ∈ hosts, aliveAt pools isAlive i = false)
    (hcnt : hosts.length ≤ pools.length * 2) (halive : aliveAt pools isAlive host = true) :
    HandsToAlive pools isAlive w := by
  obtain ⟨pool, hpool, hpoolAlive⟩ := (Option.any_eq_true _ _).mp halive
  have hends : Ends (sendBody pools isAlive) (0, w) (pools[host]?, w') :=
    ends_of_draws h hdead (by omega) (.inl halive)
  obtain ⟨n, hn⟩ := hends
  refine ⟨n, pool, w', ?_, hpoolAlive⟩
  rw [sendRequest, if_pos hlen, hn, hpool]

theorem not_handsToAlive_of_draws (hlen : 1 < pools.length)
    (h : Draws (Worker.callBody pools.length) w hosts w')
    (hdead : ∀ i ∈ hosts, aliveAt pools isAlive i = false)
    (hcnt : hosts.length = pools.length * 2 + 1) : ¬ HandsToAlive pools isAlive w := by
  rintro ⟨n, pool, v, hsend, halive⟩
  rw [sendRequest, if_pos hlen] at hsend
  rcases List.eq_nil_or_concat' hosts with rfl | ⟨hosts, last, rfl⟩
  · cases hcnt
  rw [List.length_append, List.length_singleton] at hcnt
  have hends : Ends (sendBody pools isAlive) (0, w) (pools[last]?, w') :=
    ends_of_draws h (fun i hi => hdead i (List.mem_append_left _ hi)) (by omega) (.inr (by omega))
  have hpool := (Prod.mk.inj (hends.unique ⟨n, hsend⟩)).1
  have hlast := hdead last (List.mem_append_right _ (List.mem_singleton_self last))
  rw [aliveAt, hpool] at hlast
  exact Bool.false_ne_true (hlast.symm.trans halive)

/-- From hosts among which one has a pool that is alive: the request is handed to it where it is not
behind too many others. -/
theorem handsToAlive_iff_findIdx (hlen : 1 < pools.length)
    (h : Draws (Worker.callBody pools.length) w hosts w')
    (halive : ∃ i ∈ hosts, aliveAt pools isAlive i = true) :
    HandsToAlive pools isAlive w ↔
      hosts.findIdx (aliveAt pools isAlive) ≤ pools.length * 2 := by
  have hlt := List.findIdx_lt_length_of_exists halive
  have hdead : ∀ k, k ≤ hosts.findIdx (aliveAt pools isAlive) →
      ∀ i ∈ hosts.take k, aliveAt pools isAlive i = false := by
    intro k hk i hi
    obtain ⟨j, hj, rfl⟩ := List.mem_iff_getElem.mp hi
    rw [List.length_take] at hj
    rw [List.getElem_take]
    exact List.not_of_lt_findIdx (by omega)
  constructor
  · intro hsend
    by_contra hgt
    have hsplit := List.take_append_drop (pools.length * 2 + 1) hosts
    rw [← hsplit] at h
    obtain ⟨v, hfirst, -⟩ := draws_append_iff.mp h
    refine not_handsToAlive_of_draws hlen hfirst (hdead _ (by omega)) ?_ hsend
    rw [List.length_take, min_eq_left (by omega)]
  · intro hle
    have hsplit := List.take_append_drop (hosts.findIdx (aliveAt pools isAlive) + 1) hosts
    rw [List.take_succ_eq_append_getElem hlt] at hsplit
    rw [← hsplit] at h
    obtain ⟨v, hfirst, -⟩ := draws_append_iff.mp h
    refine handsToAlive_of_draws hlen hfirst (hdead _ le_rfl) ?_ List.findIdx_getElem
    rw [List.length_take]
    omega

end SendRequest

/-! ### Round robin -/

section RR

variable {π : Type} {pools : List π} {isAlive : π → Bool} (index : UInt32)

/-- The hosts that round robin gives. -/
def rrHosts (size k : ℕ) : List ℕ :=
  (List.range k).map fun j => (index + UInt32.ofNat j).toNat % size

theorem draws_rr (size k : ℕ) : Draws (Worker.callBody size) (.rr ⟨index⟩) (rrHosts index size k)
    (.rr ⟨index + UInt32.ofNat k⟩) := by
  induction k with
  | zero =>
    have hzero : index + UInt32.ofNat 0 = index := UInt32.add_zero index
    rw [hzero]
    exact .nil _
  | succ k ih =>
    have hcall : (Worker.rr ⟨index + UInt32.ofNat k⟩).callBody size =
        .inr ((index + UInt32.ofNat k).toNat % size, .rr ⟨index + UInt32.ofNat k + 1⟩) := rfl
    have hsucc : index + UInt32.ofNat (k + 1) = index + UInt32.ofNat k + 1 := by
      rw [UInt32.add_assoc, UInt32.ofNat_add]
      rfl
    rw [rrHosts, List.range_succ, List.map_append, hsucc]
    exact ih.append (.cons ((ends_iff_of_inr hcall).mpr rfl) (.nil _))

/-- The counter comes to every host that it can come to, also where it starts again. -/
theorem exists_rrHosts {size host : ℕ} (hhost : host < size) (hmax : host < 2 ^ 32) :
    host ∈ rrHosts index size (size * 2 + 1) := by
  have hlt := index.toNat_lt
  have hval : ∀ j, (index + UInt32.ofNat j).toNat = (index.toNat + j) % 2 ^ 32 := by
    intro j
    rw [UInt32.toNat_add, UInt32.toNat_ofNat', Nat.add_mod_mod]
  have hmem : ∀ j, j ≤ size * 2 → (index.toNat + j) % 2 ^ 32 % size = host →
      host ∈ rrHosts index size (size * 2 + 1) := by
    intro j hj heq
    refine List.mem_map.mpr ⟨j, List.mem_range.mpr (by omega), ?_⟩
    rw [hval, heq]
  by_cases hwrap : index.toNat + size ≤ 2 ^ 32
  · -- the counter goes on to the host
    obtain ⟨j, hj, heq⟩ : ∃ j < size, (index.toNat + j) % size = host := by
      refine ⟨(host + size - index.toNat % size) % size, Nat.mod_lt _ (by omega), ?_⟩
      have hdiv := Nat.mod_lt index.toNat (show size > 0 by omega)
      rw [Nat.add_mod_mod, ← Nat.mod_add_mod, Nat.add_sub_cancel' (by omega),
        Nat.add_mod_right, Nat.mod_eq_of_lt hhost]
    refine hmem j (by omega) ?_
    rw [Nat.mod_eq_of_lt (show index.toNat + j < 2 ^ 32 by omega), heq]
  · -- the counter starts again, and comes to the host from there
    refine hmem (2 ^ 32 - index.toNat + host) (by omega) ?_
    have hsum : index.toNat + (2 ^ 32 - index.toNat + host) = host + 2 ^ 32 := by omega
    rw [hsum, Nat.add_mod_right, Nat.mod_eq_of_lt hmax, Nat.mod_eq_of_lt hhost]

theorem handsToAlive_rr_iff (hlen : 1 < pools.length) : HandsToAlive pools isAlive (.rr ⟨index⟩) ↔
    ∃ host < pools.length, host < 2 ^ 32 ∧ aliveAt pools isAlive host = true := by
  constructor
  · intro hsend
    by_contra hnone
    refine not_handsToAlive_of_draws hlen (draws_rr index pools.length (pools.length * 2 + 1))
      (fun i hi => ?_) ?_ hsend
    · obtain ⟨j, -, rfl⟩ := List.mem_map.mp hi
      by_contra halive
      refine hnone ⟨_, Nat.mod_lt _ (by omega), ?_, Bool.not_eq_false _ ▸ halive⟩
      exact (Nat.mod_le _ _).trans_lt (UInt32.toNat_lt _)
    · rw [rrHosts, List.length_map, List.length_range]
  · rintro ⟨host, hhost, hmax, halive⟩
    have hmem := exists_rrHosts index hhost hmax
    refine (handsToAlive_iff_findIdx hlen (draws_rr index _ _) ⟨host, hmem, halive⟩).mpr ?_
    have hlt := List.findIdx_lt_length_of_exists ⟨host, hmem, halive⟩
    rw [rrHosts, List.length_map, List.length_range] at hlt
    exact Nat.lt_succ_iff.mp hlt

end RR

/-! ### Weighted round robin -/

namespace WRRLoadbalancer

variable (lb : WRRLoadbalancer) (alive : ℕ → Bool)

def weightAt (host : ℕ) : ℤ := lb.weights.getD host 0

/-- The hosts that are selected before the hosts are gone through again. -/
def restOfPass : List ℕ :=
  if lb.wrrCurrent < 0 then []
  else (List.range lb.weights.length).filter fun host =>
    lb.wrrCurrent < host ∧ lb.weightCurrent ≤ lb.weightAt host

/-- The threshold at which the hosts are gone through next. -/
def nextThreshold : ℤ :=
  if lb.weightCurrent ≤ lb.maxGcd then lb.maxWeight else lb.weightCurrent - lb.maxGcd

/-- The largest weight of a host with a pool that is alive. -/
def aliveTop : ℤ :=
  (((List.range lb.weights.length).filter alive).map lb.weightAt).foldl max 0

/-- The first host of that weight, or more, with a pool that is alive. -/
def firstTop : ℕ :=
  (List.range lb.weights.length).findIdx fun host =>
    alive host && decide (lb.aliveTop alive ≤ lb.weightAt host)

/-- How often hosts are selected before the first host of the largest weight with a pool that is
alive, if this is the first such host: in the pass, at the thresholds above that weight, and at the
threshold that is that weight. -/
def selectedBefore : ℕ :=
  lb.restOfPass.length +
    ∑ host ∈ Finset.range lb.weights.length, ((min (lb.weightAt host) lb.nextThreshold -
      min (lb.weightAt host) (lb.aliveTop alive)) / lb.maxGcd).toNat +
    ((List.range (lb.firstTop alive)).filter fun host =>
      lb.aliveTop alive ≤ lb.weightAt host).length

/-- A host with a pool that is alive is selected among twice as many as there are, and one. -/
def Covers : Prop :=
  (∃ host ∈ lb.restOfPass, alive host = true) ∨
    lb.selectedBefore alive ≤ lb.weights.length * 2

variable {lb alive} {ws : List ℕ} {g m : ℕ}

theorem weightAt_eq (hweights : lb.weights = ws.map Nat.cast) (host : ℕ) :
    lb.weightAt host = (weightOf ws host : ℕ) := by
  rw [weightAt, hweights, ← Nat.cast_zero, List.getD_map, weightOf]

/-- The largest weight of a host with a pool that is alive, as a multiple of the divisor. -/
theorem exists_aliveTop (h : Levels ws g m) (hweights : lb.weights = ws.map Nat.cast)
    (hpos : ∀ w ∈ ws, 0 < w) (halive : ∃ host < ws.length, alive host = true) :
    ∃ a, 0 < a ∧ lb.aliveTop alive = (g * a : ℕ) ∧
      (∀ host < ws.length, alive host = true → weightOf ws host ≤ g * a) ∧
      ∃ host < ws.length, alive host = true ∧ weightOf ws host = g * a := by
  have hmap : ((List.range lb.weights.length).filter alive).map lb.weightAt =
      (((List.range ws.length).filter alive).map (weightOf ws)).map Nat.cast := by
    rw [List.map_map, hweights, List.length_map]
    exact List.map_congr_left fun host _ => weightAt_eq hweights host
  have htop := foldl_max (((List.range ws.length).filter alive).map (weightOf ws)) 0
  rw [← hmap, Nat.cast_zero] at htop
  have hle := ((foldl_max_le_iff (((List.range ws.length).filter alive).map (weightOf ws)) 0).mp
    le_rfl).2
  have hmem := foldl_max_mem (((List.range ws.length).filter alive).map (weightOf ws)) 0
  generalize (((List.range ws.length).filter alive).map (weightOf ws)).foldl max 0 = top
    at htop hle hmem
  have hreach : ∀ host < ws.length, alive host = true → weightOf ws host ≤ top :=
    fun host hhost hp => hle _ (List.mem_map_of_mem (List.mem_filter.mpr
      ⟨List.mem_range.mpr hhost, hp⟩))
  have hweight : ∀ host < ws.length, 0 < weightOf ws host ∧ g ∣ weightOf ws host := by
    intro host hhost
    rw [weightOf_of_lt hhost]
    exact ⟨hpos _ (List.getElem_mem _), (h.dvd_gcd_iff g).mp dvd_rfl _ (List.getElem_mem _)⟩
  obtain ⟨host, hhost, hp⟩ := halive
  have htopPos : 0 < top := (hweight host hhost).1.trans_le (hreach host hhost hp)
  obtain ⟨best, hbest, heq⟩ := List.mem_map.mp ((List.mem_cons.mp hmem).resolve_left htopPos.ne')
  obtain ⟨hbestLt, hbestAlive⟩ := List.mem_filter.mp hbest
  rw [List.mem_range] at hbestLt
  obtain ⟨a, rfl⟩ : g ∣ top := heq ▸ (hweight best hbestLt).2
  exact ⟨a, Nat.pos_of_mul_pos_left htopPos, htop, hreach, best, hbestLt, hbestAlive, heq⟩

/-- The parts of a weight that are above the largest weight of a host with a pool that is alive. -/
theorem toNat_div_eq (hg : 0 < g) (q l a : ℕ) :
    ((min ((g * q : ℕ) : ℤ) (g * l : ℕ) - min ((g * q : ℕ) : ℤ) (g * a : ℕ)) / (g : ℤ)).toNat =
      min q l - min q a := by
  have hmin : ∀ x, min ((g * q : ℕ) : ℤ) (g * x : ℕ) = g * (min q x : ℕ) := by
    intro x
    rw [← Nat.cast_min, Nat.mul_min_mul_left, Nat.cast_mul]
  rw [hmin, hmin, ← mul_sub, Int.mul_ediv_cancel_left _ (by omega)]
  omega

/-- The first host of the largest weight with a pool that is alive. -/
theorem exists_firstTop (h : Levels ws g m) (hweights : lb.weights = ws.map Nat.cast)
    (hpos : ∀ w ∈ ws, 0 < w) (halive : ∃ host < ws.length, alive host = true) :
    ∃ a, 0 < a ∧ lb.aliveTop alive = (g * a : ℕ) ∧
      (∀ host < ws.length, alive host = true → weightOf ws host ≤ g * a) ∧
      lb.firstTop alive < ws.length ∧ alive (lb.firstTop alive) = true ∧
      weightOf ws (lb.firstTop alive) = g * a ∧
      ∀ host < lb.firstTop alive, alive host = true → weightOf ws host < g * a := by
  obtain ⟨a, ha, htop, hle, best, hbest, hbestAlive, hbestWeight⟩ :=
    exists_aliveTop h hweights hpos halive
  have hreach : ∀ host, lb.aliveTop alive ≤ lb.weightAt host ↔ g * a ≤ weightOf ws host := by
    intro host
    rw [htop, weightAt_eq hweights]
    exact Int.ofNat_le
  have hfound : ∃ host ∈ List.range ws.length,
      (alive host && decide (lb.aliveTop alive ≤ lb.weightAt host)) = true := by
    refine ⟨best, List.mem_range.mpr hbest, ?_⟩
    rw [hbestAlive, Bool.true_and, decide_eq_true_iff, hreach, hbestWeight]
  have hfirst : lb.firstTop alive = (List.range ws.length).findIdx fun host =>
      alive host && decide (lb.aliveTop alive ≤ lb.weightAt host) := by
    rw [firstTop, hweights, List.length_map]
  have hlt : lb.firstTop alive < ws.length := by
    have hlt := List.findIdx_lt_length_of_exists hfound
    rwa [← hfirst, List.length_range] at hlt
  have hget := List.findIdx_getElem (w := List.findIdx_lt_length_of_exists hfound)
  rw [List.getElem_range, Bool.and_eq_true, decide_eq_true_iff, hreach, ← hfirst] at hget
  refine ⟨a, ha, htop, hle, hlt, hget.1, (hle _ hlt hget.1).antisymm hget.2, ?_⟩
  intro host hhost hp
  rw [hfirst] at hhost
  have hnot := List.not_of_lt_findIdx hhost
  rw [List.getElem_range, hp, Bool.true_and, decide_eq_false_iff_not, hreach] at hnot
  exact Nat.not_le.mp hnot

theorem selectedBefore_eq (h : Levels ws g m) (hweights : lb.weights = ws.map Nat.cast)
    (hgcd : lb.maxGcd = g) {a l : ℕ} (htop : lb.aliveTop alive = (g * a : ℕ))
    (hnext : lb.nextThreshold = (g * l : ℕ)) :
    lb.selectedBefore alive = lb.restOfPass.length +
      ∑ i ∈ Finset.range ws.length, (min (weightOf ws i / g) l - min (weightOf ws i / g) a) +
      (round (weightOf ws) (lb.firstTop alive) (g * a)).length := by
  have hmultiple : ∀ i < ws.length, lb.weightAt i = (g * (weightOf ws i / g) : ℕ) := by
    intro i hi
    rw [weightAt_eq hweights, Nat.mul_div_cancel']
    rw [weightOf_of_lt hi]
    exact (h.dvd_gcd_iff g).mp dvd_rfl _ (List.getElem_mem _)
  have hround : ((List.range (lb.firstTop alive)).filter fun host =>
      lb.aliveTop alive ≤ lb.weightAt host) =
        round (weightOf ws) (lb.firstTop alive) (g * a) := by
    refine List.filter_congr fun host _ => ?_
    rw [htop, weightAt_eq hweights, decide_eq_decide]
    exact Int.ofNat_le
  have hsum : ∑ host ∈ Finset.range ws.length, ((min (lb.weightAt host) lb.nextThreshold -
      min (lb.weightAt host) (lb.aliveTop alive)) / lb.maxGcd).toNat =
        ∑ i ∈ Finset.range ws.length,
          (min (weightOf ws i / g) l - min (weightOf ws i / g) a) := by
    refine Finset.sum_congr rfl fun i hi => ?_
    rw [hmultiple i (Finset.mem_range.mp hi), hnext, htop, hgcd, toNat_div_eq h.gcd_pos]
  rw [selectedBefore, hround, hweights, List.length_map, hsum]

/-- Among the hosts that are selected in the pass and in the rounds behind it, one with a pool that
is alive comes soon enough where the condition says so. -/
theorem findIdx_le_iff_covers (h : Levels ws g m) (hweights : lb.weights = ws.map Nat.cast)
    (hgcd : lb.maxGcd = g) (hpos : ∀ w ∈ ws, 0 < w)
    (halive : ∃ host < ws.length, alive host = true) {l : ℕ}
    (hnext : lb.nextThreshold = (g * (l + 1) : ℕ)) (hrest : lb.restOfPass.length < ws.length)
    (later : List ℕ) :
    (lb.restOfPass ++ (rounds (weightOf ws) ws.length g (l + 1) ++ later)).findIdx alive ≤
      ws.length * 2 ↔ lb.Covers alive := by
  by_cases hpass : ∃ host ∈ lb.restOfPass, alive host = true
  · refine iff_of_true ?_ (.inl hpass)
    have hlt := List.findIdx_lt_length_of_exists hpass
    rw [List.findIdx_append, if_pos hlt]
    omega
  have hdead : lb.restOfPass.findIdx alive = lb.restOfPass.length := by
    refine List.findIdx_eq_length.mpr fun host hhost => ?_
    exact Bool.eq_false_iff.mpr fun hp => hpass ⟨host, hhost, hp⟩
  have hlen : lb.weights.length = ws.length := by rw [hweights, List.length_map]
  obtain ⟨a, ha, htop, hle, hfirst, hfirstAlive, hfirstWeight, hbefore⟩ :=
    exists_firstTop h hweights hpos halive
  rw [List.findIdx_append, hdead, if_neg (lt_irrefl _), Covers, or_iff_right hpass, hlen,
    selectedBefore_eq h hweights hgcd htop hnext]
  by_cases habove : a < l + 1
  · obtain ⟨d, hd⟩ := Nat.exists_eq_add_of_lt habove
    have hl : l + 1 = a + (d + 1) := by omega
    rw [hl, findIdx_rounds h.gcd_pos ha hfirst hfirstAlive hfirstWeight hle hbefore, Nat.add_comm,
      Nat.add_assoc]
  · -- the next round has a host with a pool that is alive
    have hlevel : g * (l + 1) ≤ weightOf ws (lb.firstTop alive) := by
      rw [hfirstWeight]
      exact Nat.mul_le_mul_left g (Nat.not_lt.mp habove)
    have hlt := findIdx_rounds_lt hfirst hfirstAlive hlevel later
    have hzero : ∑ i ∈ Finset.range ws.length,
        (min (weightOf ws i / g) (l + 1) - min (weightOf ws i / g) a) = 0 := by
      refine Finset.sum_eq_zero fun i _ => ?_
      exact Nat.sub_eq_zero_of_le (min_le_min_left _ (Nat.not_lt.mp habove))
    have hround := length_round_le (w := weightOf ws) (n := lb.firstTop alive) (g * a)
    rw [hzero]
    constructor <;> intro <;> omega

/-! ### The states of the scheduler -/

/-- The states that the scheduler comes to. -/
def AtHost (ws : List ℕ) (g m : ℕ) (lb : WRRLoadbalancer) : Prop :=
  lb = create (ws.map Nat.cast) ∨ ∃ i k, i < ws.length ∧ 0 < k ∧ k ≤ m ∧ lb = stateAt ws g i k

/-- A round of the loop visits a host. -/
theorem AtHost.exists_visit (h : Levels ws g m) (hlb : AtHost ws g m lb) :
    ∃ i k, i < ws.length ∧ 0 < k ∧ k ≤ m ∧ lb.selectBody = (stateAt ws g i k).visit := by
  have hlen := List.length_pos_of_ne_nil (List.ne_nil_of_mem h.mem)
  rcases hlb with rfl | ⟨i, k, hi, hk, hkm, rfl⟩
  · exact ⟨0, m, hlen, h.top_pos, le_rfl, selectBody_create h⟩
  · by_cases hnext : i + 1 < ws.length
    · exact ⟨i + 1, k, hnext, hk, hkm, selectBody_at_of_lt hnext k⟩
    · have hlast : i + 1 = ws.length := by omega
      by_cases hlow : k = 1
      · subst hlow
        exact ⟨0, m, hlen, h.top_pos, le_rfl, selectBody_lowest h hlast⟩
      · obtain ⟨k, rfl⟩ := Nat.exists_eq_succ_of_ne_zero hk.ne'
        have hkpos : 0 < k := by omega
        exact ⟨0, k, hlen, hkpos, by omega, selectBody_last h hlast hkpos⟩

theorem atHost_of_reached (h : Levels ws g m) {w : Worker}
    (hw : Reached ws.length (.wrr (create (ws.map Nat.cast))) w) :
    ∃ lb, w = .wrr lb ∧ AtHost ws g m lb := by
  obtain ⟨hosts, hdraws⟩ := hw
  generalize hstart : Worker.wrr (create (ws.map Nat.cast)) = start at hdraws
  have hat : ∃ lb, start = .wrr lb ∧ AtHost ws g m lb := ⟨_, hstart.symm, .inl rfl⟩
  clear hstart
  induction hdraws with
  | nil s => exact hat
  | @cons s t u host hosts hends _ ih =>
    refine ih (hends.of_invariant (fun w => ∃ lb, w = .wrr lb ∧ AtHost ws g m lb)
      (fun r => ∃ lb, r.2 = .wrr lb ∧ AtHost ws g m lb) ?_ ?_ hat)
    · rintro _ w' ⟨lb, rfl, hlb⟩ hbody
      obtain ⟨i, k, hi, hk, hkm, hvisit⟩ := hlb.exists_visit h
      rw [Worker.callBody, hvisit, visit_at] at hbody
      split_ifs at hbody
      exact ⟨_, (Sum.inl.inj hbody).symm, .inr ⟨i, k, hi, hk, hkm, rfl⟩⟩
    · rintro _ r ⟨lb, rfl, hlb⟩ hbody
      obtain ⟨i, k, hi, hk, hkm, hvisit⟩ := hlb.exists_visit h
      rw [Worker.callBody, hvisit, visit_at] at hbody
      have hne : (i : ℤ) ≠ -1 := by omega
      split_ifs at hbody
      simp only [if_neg hne] at hbody
      obtain rfl := Sum.inr.inj hbody
      exact ⟨_, rfl, .inr ⟨i, k, hi, hk, hkm, rfl⟩⟩

/-- What is selected is where the scheduler is. -/
theorem wrrCurrent_of_selectBody {r : ℤ} {t : WRRLoadbalancer} (h : lb.selectBody = .inr (r, t))
    (hr : 0 ≤ r) : t.wrrCurrent = r := by
  have hvisit : ∀ lb : WRRLoadbalancer, lb.visit = .inr (r, t) → t.wrrCurrent = r := by
    intro lb hlb
    rw [visit] at hlb
    split_ifs at hlb
    obtain ⟨rfl, rfl⟩ := Prod.mk.inj (Sum.inr.inj hlb)
    rfl
  rw [selectBody] at h
  simp only at h
  split_ifs at h
  · obtain ⟨rfl, -⟩ := Prod.mk.inj (Sum.inr.inj h)
    omega
  all_goals exact hvisit _ h

theorem ends_callBody {size host : ℕ} {t : WRRLoadbalancer} (hhost : host < size)
    (h : Ends selectBody lb ((host : ℤ), t)) :
    Ends (Worker.callBody size) (.wrr lb) (host, .wrr t) := by
  obtain ⟨n, hn⟩ := h
  induction n generalizing lb with
  | zero => cases hn
  | succ n ih =>
    rw [run] at hn
    cases hbody : lb.selectBody with
    | inl lb' =>
      rw [hbody] at hn
      have hcall : (Worker.wrr lb).callBody size = .inl (.wrr lb') := by
        rw [Worker.callBody, hbody]
      exact (ends_iff_of_inl hcall).mpr (ih hn)
    | inr r =>
      rw [hbody] at hn
      obtain rfl := Option.some.inj hn
      have hcurrent := wrrCurrent_of_selectBody hbody (Int.natCast_nonneg host)
      have hcall : (Worker.wrr lb).callBody size = .inr (host, .wrr t) := by
        have hne : (host : ℤ) ≠ -1 := by omega
        have hmod : (host : ℤ) % (size : ℤ) = (host : ℕ) := by
          exact_mod_cast Nat.mod_eq_of_lt hhost
        rw [Worker.callBody, hbody]
        simp only [if_neg hne, hmod, Int.toNat_natCast]
        rw [← hcurrent]
      exact (ends_iff_of_inr hcall).mpr rfl

theorem draws_wrr {size : ℕ} {hosts : List ℕ} {t : WRRLoadbalancer}
    (hhosts : ∀ host ∈ hosts, host < size) (h : Selects lb (hosts.map Nat.cast) t) :
    Draws (Worker.callBody size) (.wrr lb) hosts (.wrr t) := by
  induction hosts generalizing lb with
  | nil =>
    obtain rfl := draws_nil_iff.mp h
    exact .nil _
  | cons host hosts ih =>
    obtain ⟨u, hends, hrest⟩ := draws_cons_iff.mp h
    exact .cons (ends_callBody (hhosts host List.mem_cons_self) hends)
      (ih (fun i hi => hhosts i (List.mem_cons_of_mem _ hi)) hrest)

/-! ### The hosts that come next -/

/-- The hosts that are selected from a state on: the rest of the pass, a number of rounds at falling
thresholds, and more. -/
structure Upcoming (ws : List ℕ) (g : ℕ) (lb : WRRLoadbalancer) (l : ℕ) (later : List ℕ) :
    Prop where
  weights_eq : lb.weights = ws.map Nat.cast
  maxGcd_eq : lb.maxGcd = g
  nextThreshold_eq : lb.nextThreshold = (g * (l + 1) : ℕ)
  length_rest : lb.restOfPass.length < ws.length
  passes : Passes selectBody lb
    ((lb.restOfPass ++ (rounds (weightOf ws) ws.length g (l + 1) ++ later)).map Nat.cast)
    (stateAt ws g (ws.length - 1) 1)
  later_lt : ∀ host ∈ later, host < ws.length

theorem exists_upcoming_create (h : Levels ws g m) :
    ∃ l, Upcoming ws g (create (ws.map Nat.cast)) l [] := by
  have hlen := List.length_pos_of_ne_nil (List.ne_nil_of_mem h.mem)
  obtain ⟨m, rfl⟩ := Nat.exists_eq_succ_of_ne_zero h.top_pos.ne'
  have hrest : (create (ws.map Nat.cast)).restOfPass = [] :=
    if_pos (show (-1 : ℤ) < 0 by decide)
  refine ⟨m, rfl, h.gcd_eq, ?_, ?_, ?_, fun _ hhost => absurd hhost List.not_mem_nil⟩
  · have hlow : (create (ws.map Nat.cast)).weightCurrent ≤
        (create (ws.map Nat.cast)).maxGcd := by
      have hgcd : (create (ws.map Nat.cast)).maxGcd = g := h.gcd_eq
      rw [hgcd]
      exact Int.natCast_nonneg g
    rw [nextThreshold, if_pos hlow]
    exact h.max_eq
  · rw [hrest]
    exact hlen
  · rw [hrest, List.nil_append, List.append_nil]
    exact passes_block h (selectBody_create h)

theorem filter_lt_range (i n : ℕ) :
    ((List.range n).filter fun j => i < j) = List.range' (i + 1) (n - (i + 1)) := by
  by_cases hi : i + 1 ≤ n
  · have hsplit : List.range n = List.range' 0 (i + 1) ++ List.range' (i + 1) (n - (i + 1)) := by
      have happend := @List.range'_append_1 0 (i + 1) (n - (i + 1))
      rw [Nat.zero_add, Nat.add_sub_cancel' hi] at happend
      rw [List.range_eq_range', happend]
    rw [hsplit, List.filter_append, List.filter_eq_nil_iff.mpr, List.nil_append,
      List.filter_eq_self]
    · intro j hj
      exact decide_eq_true (by have := List.mem_range'_1.mp hj; omega)
    · intro j hj
      have := List.mem_range'_1.mp hj
      rw [decide_eq_true_iff]
      omega
  · rw [Nat.sub_eq_zero_of_le (by omega), List.range'_zero, List.filter_eq_nil_iff]
    intro j hj
    have := List.mem_range.mp hj
    rw [decide_eq_true_iff]
    omega

theorem restOfPass_stateAt (i k : ℕ) : (stateAt ws g i k).restOfPass =
    (List.range' (i + 1) (ws.length - (i + 1))).filter fun j => g * k ≤ weightOf ws j := by
  have hneg : ¬ (stateAt ws g i k).wrrCurrent < 0 := Int.not_lt.mpr (Int.natCast_nonneg i)
  have hlen : (stateAt ws g i k).weights.length = ws.length := List.length_map _
  have hmem : ∀ j : ℕ, decide ((stateAt ws g i k).wrrCurrent < j ∧
      (stateAt ws g i k).weightCurrent ≤ (stateAt ws g i k).weightAt j) =
        (decide (g * k ≤ weightOf ws j) && decide (i < j)) := by
    intro j
    rw [weightAt_eq rfl, Bool.decide_and, Bool.and_comm]
    congr 1
    · exact decide_eq_decide.mpr Int.ofNat_le
    · exact decide_eq_decide.mpr Int.ofNat_lt
  rw [restOfPass, if_neg hneg, hlen]
  simp only [hmem]
  rw [← List.filter_filter, filter_lt_range]

theorem exists_upcoming_stateAt (h : Levels ws g m) {i k : ℕ} (hi : i < ws.length) (hk : 0 < k) :
    ∃ l later, Upcoming ws g (stateAt ws g i k) l later := by
  have hws := List.ne_nil_of_mem h.mem
  have hlast : ws.length - 1 + 1 = ws.length := by omega
  have hrest : (stateAt ws g i k).restOfPass.length < ws.length := by
    rw [restOfPass_stateAt]
    refine (List.length_filter_le _ _).trans_lt ?_
    rw [List.length_range']
    omega
  have hpass : Passes selectBody (stateAt ws g i k)
      ((stateAt ws g i k).restOfPass.map Nat.cast) (stateAt ws g (ws.length - 1) k) := by
    rw [restOfPass_stateAt]
    by_cases hnext : i + 1 < ws.length
    · exact passes_visit hnext (selectBody_at_of_lt hnext k)
    · obtain rfl : i = ws.length - 1 := by omega
      rw [hlast, Nat.sub_self]
      exact .refl _
  have hgcd : (stateAt ws g i k).maxGcd = g := h.gcd_eq
  have hcurrent : (stateAt ws g i k).weightCurrent = (g * k : ℕ) := rfl
  obtain ⟨m, rfl⟩ := Nat.exists_eq_succ_of_ne_zero h.top_pos.ne'
  have hlowest := passes_block h (selectBody_lowest h hlast)
  by_cases hlow : k = 1
  · subst hlow
    refine ⟨m, [], rfl, h.gcd_eq, ?_, hrest, ?_, fun _ hhost => absurd hhost List.not_mem_nil⟩
    · rw [nextThreshold, hcurrent, hgcd, Nat.mul_one, if_pos le_rfl]
      exact h.max_eq
    · rw [List.append_nil, List.map_append]
      exact hpass.append hlowest
  · obtain ⟨k, rfl⟩ : ∃ l, k = l + 2 := ⟨k - 2, by omega⟩
    refine ⟨k, rounds (weightOf ws) ws.length g (m + 1), rfl, h.gcd_eq, ?_, hrest, ?_,
      fun host hhost => (mem_rounds.mp hhost).1⟩
    · have hlevel : ((g * (k + 2) : ℕ) : ℤ) - g = (g * (k + 1) : ℕ) := by
        rw [show g * (k + 2) = g * (k + 1) + g from Nat.mul_succ g (k + 1), Nat.cast_add,
          Int.add_sub_cancel]
      have hpos : 0 < g * (k + 1) := Nat.mul_pos h.gcd_pos (Nat.succ_pos k)
      rw [nextThreshold, hcurrent, hgcd, if_neg (by omega), hlevel]
    · rw [List.map_append, List.map_append]
      exact hpass.append ((passes_rounds h hws (k + 1)).append hlowest)

/-- From every state that the scheduler comes to. -/
theorem handsToAlive_wrr_iff (h : Levels ws g m) (hpos : ∀ w ∈ ws, 0 < w) {π : Type}
    {pools : List π} {isAlive : π → Bool} (hlen : 1 < pools.length)
    (hsize : ws.length = pools.length)
    (halive : ∃ host < pools.length, aliveAt pools isAlive host = true) (hlb : AtHost ws g m lb) :
    HandsToAlive pools isAlive (.wrr lb) ↔ lb.Covers (aliveAt pools isAlive) := by
  obtain ⟨l, later, hup⟩ : ∃ l later, Upcoming ws g lb l later := by
    rcases hlb with rfl | ⟨i, k, hi, hk, -, rfl⟩
    · obtain ⟨l, hup⟩ := exists_upcoming_create h
      exact ⟨l, [], hup⟩
    · exact exists_upcoming_stateAt h hi hk
  rw [← hsize] at halive
  obtain ⟨t, hselects, -⟩ := hup.passes.exists_draws
  have hlt : ∀ host ∈ lb.restOfPass ++ (rounds (weightOf ws) ws.length g (l + 1) ++ later),
      host < pools.length := by
    intro host hhost
    rw [List.mem_append, List.mem_append] at hhost
    rcases hhost with hhost | hhost | hhost
    · rw [restOfPass] at hhost
      split_ifs at hhost
      · cases hhost
      · have hrange := List.mem_range.mp (List.mem_of_mem_filter hhost)
        rwa [hup.weights_eq, List.length_map, hsize] at hrange
    · exact hsize ▸ (mem_rounds.mp hhost).1
    · exact hsize ▸ hup.later_lt host hhost
  have hfound : ∃ host ∈ lb.restOfPass ++ (rounds (weightOf ws) ws.length g (l + 1) ++ later),
      aliveAt pools isAlive host = true := by
    obtain ⟨host, hhost, hp⟩ := halive
    refine ⟨host, List.mem_append_right _ (List.mem_append_left _ ?_), hp⟩
    refine mem_rounds.mpr ⟨hhost, ?_, Nat.succ_pos l⟩
    rw [weightOf_of_lt hhost]
    exact Nat.le_of_dvd (hpos _ (List.getElem_mem _))
      ((h.dvd_gcd_iff g).mp dvd_rfl _ (List.getElem_mem _))
  rw [handsToAlive_iff_findIdx hlen (draws_wrr hlt hselects) hfound, ← hsize]
  exact findIdx_le_iff_covers h hup.weights_eq hup.maxGcd_eq hpos halive hup.nextThreshold_eq
    hup.length_rest later

end WRRLoadbalancer

/-! ### Both policies -/

/-- A pool that is alive is come to in time. Round robin cannot come to hosts behind the first
`2 ^ 32`. -/
def Worker.Covers {π : Type} (pools : List π) (isAlive : π → Bool) : Worker → Prop
  | .rr _ => ∃ host < pools.length, host < 2 ^ 32 ∧ aliveAt pools isAlive host = true
  | .wrr lb => lb.Covers (aliveAt pools isAlive)

theorem exists_aliveAt {π : Type} {pools : List π} {isAlive : π → Bool}
    (h : ∃ pool ∈ pools, isAlive pool = true) :
    ∃ host < pools.length, aliveAt pools isAlive host = true := by
  obtain ⟨pool, hmem, hp⟩ := h
  obtain ⟨host, hhost, rfl⟩ := List.mem_iff_getElem.mp hmem
  refine ⟨host, hhost, ?_⟩
  rw [aliveAt, List.getElem?_eq_getElem hhost, Option.any_some, hp]

/-- When the request is handed to a pool that is alive. -/
theorem sendRequest_alive_iff {π : Type} {pools : List π} {isAlive : π → Bool}
    {lba : LoadBalanceAlgorithm} {weights : List ℤ} {start w : Worker} (hlen : 2 ≤ pools.length)
    (hinit : Worker.init lba pools.length weights = .ok start)
    (hpos : ∀ weight ∈ weights, 0 < weight) (hreached : Reached pools.length start w)
    (halive : ∃ pool ∈ pools, isAlive pool = true) :
    HandsToAlive pools isAlive w ↔ w.Covers pools isAlive := by
  cases lba with
  | RR =>
    obtain rfl := Except.ok.inj hinit
    obtain ⟨hosts, hdraws⟩ := hreached
    obtain ⟨-, rfl⟩ := hdraws.unique (draws_rr 0 pools.length hosts.length)
      (by rw [rrHosts, List.length_map, List.length_range])
    exact handsToAlive_rr_iff _ hlen
  | WRR =>
    rw [Worker.init] at hinit
    split_ifs at hinit with hempty hsize
    obtain rfl := Except.ok.inj hinit
    obtain ⟨ws, rfl⟩ : ∃ ws : List ℕ, ws.map Nat.cast = weights :=
      CanLift.prf weights fun weight hweight => (hpos weight hweight).le
    have hposNat : ∀ x ∈ ws, 0 < x := fun x hx =>
      Int.natCast_pos.mp (hpos _ (List.mem_map_of_mem hx))
    have hlength : ws.length = pools.length := by
      rw [Decidable.not_not.mp hsize, List.length_map]
    have hne : ws ≠ [] := List.ne_nil_of_length_pos (by omega)
    obtain ⟨x, hx⟩ := List.exists_mem_of_ne_nil ws hne
    obtain ⟨g, m, hlevels⟩ := exists_levels ⟨x, hx, hposNat x hx⟩
    rw [← hlength] at hreached
    obtain ⟨lb, rfl, hat⟩ := atHost_of_reached hlevels hreached
    exact handsToAlive_wrr_iff hlevels hposNat hlen hlength (exists_aliveAt halive) hat

theorem sendRequest_alive_two : HandsToAlive [false, true] id (.wrr (create [2, 1])) ↔
    (Worker.wrr (create [2, 1])).Covers [false, true] id :=
  @sendRequest_alive_iff Bool [false, true] id .WRR [2, 1] (.wrr (create [2, 1])) _ (by decide) rfl
    (by decide) ⟨[], .nil _⟩ ⟨true, by decide, rfl⟩

/-- A host of weight 100 is selected five times before the other is alive. -/
theorem not_handsToAlive_heavy :
    Worker.init .WRR [false, true].length [100, 1] = .ok (.wrr (create [100, 1])) ∧
      Reached [false, true].length (.wrr (create [100, 1])) (.wrr (create [100, 1])) ∧
      (∃ pool ∈ [false, true], id pool = true) ∧
      ¬ HandsToAlive [false, true] id (.wrr (create [100, 1])) := by
  refine ⟨rfl, ⟨[], .nil _⟩, ⟨true, by decide, rfl⟩, ?_⟩
  rintro ⟨n, pool, w, hsend, halive⟩
  have hdead : ∃ w', Ends (sendBody [false, true] id) (0, .wrr (create [100, 1]))
      (some false, w') := ⟨_, 10, rfl⟩
  obtain ⟨w', hends⟩ := hdead
  have hpool := (Prod.mk.inj (hends.unique ⟨n, hsend⟩)).1
  rw [Option.some.injEq] at hpool
  rw [← hpool] at halive
  cases halive

end Yalantinglibs.CoroIo
