import Mathlib.Algebra.Order.Field.Rat
import Mathlib.Data.Rat.Floor
import Mathlib.Tactic.FieldSimp
import Mathlib.Tactic.NormNum
import Mathlib.Tactic.Ring
import Yalantinglibs.Data.TokenBucket

/-!
# The rate limiter

`coro_io/rate_limiter.hpp`, `smooth_bursty_rate_limiter`. The permits that are not used are stored,
for one second at most. A call that takes more than is stored moves the time of the next grant into
the future, in whole milliseconds, and a call waits for whole milliseconds. Both are cut off, so
that a part of a millisecond is given away.

The floating numbers are exact. Times are in nanoseconds, as those of the steady clock, and are kept
in 64 bits.

## Main definitions

* `RateLimiter` — the limiter, with `resync`, `reserveEarliestAvailable`, `acquire` and `setRate`
* `grants` — the permits that a sequence of calls gets, and when
* `Uncut` — neither the time of the next grant nor the wait of a call is cut off, and no time leaves
  its 64 bits

## Main results

* `paced_grants` — without a cut the grants are those of a bucket
* `uncut_of_whole` — with a whole number of milliseconds between two permits, and calls at whole
  milliseconds, nothing is cut off as long as no time leaves its 64 bits
* `rate_of_uncut` — the permits in a window
-/

set_option autoImplicit false

namespace Yalantinglibs.CoroIo

open TokenBucket

/-- The nanoseconds of a millisecond. -/
def nanosPerMilli : ℤ := 1000000

/-- `duration_cast<milliseconds>`. -/
def castMillis (nanos : ℤ) : ℤ := nanos.tdiv nanosPerMilli

/-- An integer that is kept in 64 bits. The language leaves open what happens where it is too large;
here it wraps, as it does on the processors that the library is for. -/
def int64 (n : ℤ) : ℤ := n.bmod (2 ^ 64)

/-- The integer fits into 64 bits. -/
def IsInt64 (n : ℤ) : Prop := -2 ^ 63 ≤ n ∧ n < 2 ^ 63

instance : DecidablePred IsInt64 := fun n => by
  unfold IsInt64
  infer_instance

theorem int64_of_isInt64 {n : ℤ} (h : IsInt64 n) : int64 n = n := by
  obtain ⟨hlow, hhigh⟩ := h
  rw [int64, Int.bmod_eq_of_le] <;> omega

/-- A number without its fraction. -/
def wholePart (q : ℚ) : ℤ := q.num.tdiv q.den

/-- The conversion of a floating number to `int64_t`. -/
def truncate (q : ℚ) : ℤ := int64 (wholePart q)

/-- `smooth_bursty_rate_limiter`. The interval is in milliseconds, the next free ticket in
nanoseconds. -/
structure RateLimiter where
  storedPermits : ℚ
  maxPermits : ℚ
  stableInternal : ℚ
  nextFreeTicket : ℤ

namespace RateLimiter

/-- `max_burst_seconds_`. -/
def maxBurstSeconds : ℚ := 1

/-- `cool_down_internal_micros`. -/
def coolDownInternal (s : RateLimiter) : ℚ := s.stableInternal

/-- `stored_permits_to_wait_time`. -/
def storedPermitsToWaitTime (_storedPermits _permitsToTake : ℚ) : ℤ := 0

/-- `resync`. Before the first rate is set the interval is zero; the quotient is infinite there and
zero here, and the permits are those of an empty limiter in both. -/
def resync (s : RateLimiter) (now : ℤ) : RateLimiter :=
  if now > s.nextFreeTicket then
    let newPermits : ℚ := castMillis (int64 (now - s.nextFreeTicket)) / s.coolDownInternal
    { s with
      storedPermits := min s.maxPermits (s.storedPermits + newPermits)
      nextFreeTicket := now }
  else s

/-- `do_set_rate`. -/
def setRate (s : RateLimiter) (permitsPerSecond : ℚ) (now : ℤ) : RateLimiter :=
  let s := s.resync now
  let oldMaxPermits := s.maxPermits
  let maxPermits := maxBurstSeconds * permitsPerSecond
  { s with
    stableInternal := 1000 / permitsPerSecond
    maxPermits := maxPermits
    storedPermits := if 0 = oldMaxPermits then 0 else s.storedPermits * maxPermits / oldMaxPermits }

/-- The constructor. -/
def create (permitsPerSecond : ℚ) (now : ℤ) : RateLimiter :=
  setRate ⟨0, 0, 0, 0⟩ permitsPerSecond now

/-- The permits that a call takes from the stored ones, behind `resync`. -/
def storedPermitsToSpend (s : RateLimiter) (requiredPermits : ℤ) : ℚ :=
  min (requiredPermits : ℚ) s.storedPermits

/-- The other ones. -/
def freshPermits (s : RateLimiter) (requiredPermits : ℤ) : ℚ :=
  requiredPermits - s.storedPermitsToSpend requiredPermits

/-- `reserve_earliest_available`: the time of the grant. -/
def reserveEarliestAvailable (s : RateLimiter) (requiredPermits now : ℤ) : ℤ × RateLimiter :=
  let s := s.resync now
  let spend := s.storedPermitsToSpend requiredPermits
  let wait := storedPermitsToWaitTime s.storedPermits spend +
    truncate (s.freshPermits requiredPermits * s.stableInternal)
  (s.nextFreeTicket,
    { s with
      nextFreeTicket := int64 (s.nextFreeTicket + int64 (wait * nanosPerMilli))
      storedPermits := s.storedPermits - spend })

/-- `acquire`, by `reserve_and_get_wait_length`: the milliseconds to wait. -/
def acquire (s : RateLimiter) (permits now : ℤ) : ℤ × RateLimiter :=
  let (momentAvailable, s') := s.reserveEarliestAvailable permits now
  (max (castMillis (int64 (momentAvailable - now))) 0, s')

/-- The grants of a sequence of calls, each with its permits and its time. -/
def grants : RateLimiter → List (ℤ × ℤ) → List (Grant ℚ)
  | _, [] => []
  | s, (permits, now) :: calls =>
    let (wait, s') := s.acquire permits now
    { permits := permits
      time := now + wait * nanosPerMilli
      stored := (s.resync now).storedPermits } :: grants s' calls

/-- The grants in a window of time. -/
def grantsIn (s : RateLimiter) (calls : List (ℤ × ℤ)) (a b : ℚ) : List (Grant ℚ) :=
  (grants s calls).filter fun g => a ≤ g.time ∧ g.time ≤ b

/-- The permits in a window are no more than what comes in its seconds at the rate, a full store,
and those of the last grant in it. -/
def WithinRate (r : ℚ) (s : RateLimiter) (calls : List (ℤ × ℤ)) (a b : ℚ) : Prop :=
  total (grantsIn s calls a b) ≤
    r * ((b - a) / 1000000000) + s.maxPermits + lastPermits (grantsIn s calls a b)

/-- The time since the next free ticket, where it has passed, fits into 64 bits. -/
def Elapsed (s : RateLimiter) (now : ℤ) : Prop :=
  s.nextFreeTicket < now → IsInt64 (now - s.nextFreeTicket)

instance (s : RateLimiter) : DecidablePred s.Elapsed := fun now => by
  unfold Elapsed
  infer_instance

/-- The milliseconds of the permits that a call does not find in store. -/
def freshMillis (s : RateLimiter) (permits now : ℤ) : ℚ :=
  (s.resync now).freshPermits permits * s.stableInternal

/-- No time leaves its 64 bits in a call. -/
@[mk_iff]
structure InRange (s : RateLimiter) (permits now : ℤ) : Prop where
  elapsed : s.Elapsed now
  wait : IsInt64 (wholePart (s.freshMillis permits now) * nanosPerMilli)
  next : IsInt64 ((s.resync now).nextFreeTicket +
    wholePart (s.freshMillis permits now) * nanosPerMilli)
  ahead : IsInt64 ((s.resync now).nextFreeTicket - now)

instance (s : RateLimiter) (permits now : ℤ) : Decidable (s.InRange permits now) :=
  decidable_of_iff _ (inRange_iff s permits now).symm

/-- Nothing is cut off in a call: the fresh permits take a whole number of milliseconds, and so does
the wait. -/
structure Uncut (s : RateLimiter) (permits now : ℤ) : Prop extends InRange s permits now where
  fresh : wholePart (s.freshMillis permits now) = s.freshMillis permits now
  moment : nanosPerMilli ∣ (s.resync now).nextFreeTicket - now

/-- No time leaves its 64 bits in a sequence of calls. -/
def AllInRange : RateLimiter → List (ℤ × ℤ) → Prop
  | _, [] => True
  | s, (permits, now) :: calls =>
    s.InRange permits now ∧ AllInRange (s.acquire permits now).2 calls

/-- Nothing is cut off in a sequence of calls. -/
def AllUncut : RateLimiter → List (ℤ × ℤ) → Prop
  | _, [] => True
  | s, (permits, now) :: calls => s.Uncut permits now ∧ AllUncut (s.acquire permits now).2 calls

/-- What a limiter with a rate is like. -/
structure Regular (r : ℚ) (s : RateLimiter) : Prop where
  stableInternal : s.stableInternal = 1000 / r
  maxPermits : s.maxPermits = r
  stored_le : s.storedPermits ≤ s.maxPermits

section Calls

variable {r : ℚ} {s : RateLimiter} {permits now : ℤ} {calls : List (ℤ × ℤ)}

/-! ### A call -/

@[simp] theorem stableInternal_resync : (s.resync now).stableInternal = s.stableInternal := by
  rw [resync]
  split <;> rfl

@[simp] theorem maxPermits_resync : (s.resync now).maxPermits = s.maxPermits := by
  rw [resync]
  split <;> rfl

theorem le_nextFreeTicket_resync : now ≤ (s.resync now).nextFreeTicket := by
  rw [resync]
  split
  · exact le_refl now
  · rename_i h
    exact not_lt.mp h

/-- Whole milliseconds are no more than the time. -/
theorem castMillis_mul_le {nanos : ℤ} (h : 0 ≤ nanos) :
    castMillis nanos * nanosPerMilli ≤ nanos := by
  rw [castMillis, Int.tdiv_eq_ediv_of_nonneg h, nanosPerMilli]
  omega

theorem castMillis_nonneg {nanos : ℤ} (h : 0 ≤ nanos) : 0 ≤ castMillis nanos :=
  Int.tdiv_nonneg h (by decide)

/-- The stored permits grow by no more than the time that passes. -/
theorem storedPermits_resync_le (hr : 0 < r) (hs : s.stableInternal = 1000 / r)
    (helapsed : s.Elapsed now) :
    (s.resync now).storedPermits ≤ s.storedPermits +
      r / 1000000000 * ((s.resync now).nextFreeTicket - s.nextFreeTicket) := by
  rw [resync]
  split
  · rename_i hlt
    rw [int64_of_isInt64 (helapsed hlt)]
    have hcast := castMillis_mul_le (sub_nonneg.mpr hlt.le)
    have hcast' : (castMillis (now - s.nextFreeTicket) : ℚ) * 1000000 ≤ now - s.nextFreeTicket := by
      exact_mod_cast hcast
    have hnew : (castMillis (now - s.nextFreeTicket) : ℚ) / s.coolDownInternal =
        r / 1000000000 * (castMillis (now - s.nextFreeTicket) * 1000000) := by
      rw [coolDownInternal, hs]
      field_simp
      ring
    have hrate : 0 ≤ r / 1000000000 := by positivity
    dsimp only
    rw [hnew]
    exact (min_le_right _ _).trans (add_le_add_right (mul_le_mul_of_nonneg_left hcast' hrate) _)
  · rw [sub_self, mul_zero, add_zero]

theorem regular_resync (hs : s.Regular r) : (s.resync now).Regular r := by
  refine ⟨by rw [stableInternal_resync, hs.stableInternal],
    by rw [maxPermits_resync, hs.maxPermits], ?_⟩
  rw [maxPermits_resync, resync]
  split
  · exact min_le_left _ _
  · exact hs.stored_le

/-- The store does not fall below zero, as time goes on. -/
theorem stored_nonneg_resync (hr : 0 < r) (hs : s.Regular r) (hstored : 0 ≤ s.storedPermits)
    (helapsed : s.Elapsed now) : 0 ≤ (s.resync now).storedPermits := by
  rw [resync]
  split
  · rename_i hlt
    rw [int64_of_isInt64 (helapsed hlt)]
    have hcast : (0 : ℚ) ≤ castMillis (now - s.nextFreeTicket) := by
      exact_mod_cast castMillis_nonneg (sub_nonneg.mpr hlt.le)
    have hcool : 0 ≤ s.coolDownInternal := by
      rw [coolDownInternal, hs.stableInternal]
      positivity
    exact le_min (hstored.trans hs.stored_le) (add_nonneg hstored (div_nonneg hcast hcool))
  · exact hstored

/-- The limiter behind a call. -/
theorem acquire_snd (s : RateLimiter) (permits now : ℤ) : (s.acquire permits now).2 =
    { s.resync now with
      nextFreeTicket := int64 ((s.resync now).nextFreeTicket +
        int64 (truncate (s.freshMillis permits now) * nanosPerMilli))
      storedPermits := (s.resync now).storedPermits -
        (s.resync now).storedPermitsToSpend permits } := by
  rw [acquire, reserveEarliestAvailable, storedPermitsToWaitTime]
  dsimp only
  rw [stableInternal_resync, zero_add, freshMillis]

theorem storedPermits_acquire (s : RateLimiter) (permits now : ℤ) :
    (s.acquire permits now).2.storedPermits =
      (s.resync now).storedPermits - (s.resync now).storedPermitsToSpend permits := by
  rw [acquire_snd]

/-- Without an overflow, the next free ticket is pushed by the whole milliseconds. -/
theorem InRange.nextFreeTicket_acquire (h : s.InRange permits now) :
    (s.acquire permits now).2.nextFreeTicket =
      (s.resync now).nextFreeTicket + wholePart (s.freshMillis permits now) * nanosPerMilli := by
  obtain ⟨-, hwait, hnext, -⟩ := h
  have hwhole : IsInt64 (wholePart (s.freshMillis permits now)) := by
    obtain ⟨hlow, hhigh⟩ := hwait
    rw [nanosPerMilli] at hlow hhigh
    constructor <;> omega
  rw [acquire_snd]
  dsimp only
  rw [truncate, int64_of_isInt64 hwhole, int64_of_isInt64 hwait, int64_of_isInt64 hnext]

theorem regular_acquire (hr : 0 < r) (hs : s.Regular r) (hpermits : 0 ≤ permits) :
    (s.acquire permits now).2.Regular r := by
  have h : (s.resync now).Regular r := regular_resync hs
  have hstored : (s.acquire permits now).2.storedPermits ≤ (s.resync now).maxPermits := by
    rw [storedPermits_acquire, storedPermitsToSpend, sub_le_iff_le_add]
    obtain hle | hle := min_cases (permits : ℚ) (s.resync now).storedPermits
    · rw [hle.1]
      exact h.stored_le.trans (le_add_of_nonneg_right (Int.cast_nonneg hpermits))
    · rw [hle.1, h.maxPermits]
      exact le_add_of_nonneg_left hr.le
  have hmax : (s.acquire permits now).2.maxPermits = (s.resync now).maxPermits := by
    rw [acquire_snd]
  refine ⟨?_, hmax.trans h.maxPermits, hstored.trans_eq hmax.symm⟩
  rw [acquire_snd]
  exact h.stableInternal

theorem stored_nonneg_acquire (s : RateLimiter) (permits now : ℤ) :
    0 ≤ (s.acquire permits now).2.storedPermits := by
  rw [storedPermits_acquire]
  exact sub_nonneg.mpr (min_le_right _ _)

theorem regular_setRate {r' : ℚ} (hr : 0 < r) (hr' : 0 < r') (hs : s.Regular r) :
    (s.setRate r' now).Regular r' := by
  have h : (s.resync now).Regular r := regular_resync hs
  have hmax : (s.resync now).maxPermits = r := h.maxPermits
  have hstored := h.stored_le
  have hburst : maxBurstSeconds * r' = r' := one_mul r'
  refine ⟨rfl, hburst, ?_⟩
  change (if 0 = (s.resync now).maxPermits then 0 else _) ≤ maxBurstSeconds * r'
  rw [hmax] at hstored
  rw [hmax, if_neg hr.ne, hburst, div_le_iff₀ hr, mul_comm r']
  exact mul_le_mul_of_nonneg_right hstored hr'.le

theorem stored_nonneg_setRate {r' : ℚ} (hr : 0 < r) (hr' : 0 < r') (hs : s.Regular r)
    (hstored : 0 ≤ s.storedPermits) (helapsed : s.Elapsed now) :
    0 ≤ (s.setRate r' now).storedPermits := by
  have hmax : (s.resync now).maxPermits = r := (regular_resync hs).maxPermits
  have hburst : maxBurstSeconds * r' = r' := one_mul r'
  change 0 ≤ if 0 = (s.resync now).maxPermits then 0 else _
  rw [hmax, if_neg hr.ne, hburst]
  exact div_nonneg (mul_nonneg (stored_nonneg_resync hr hs hstored helapsed) hr'.le) hr.le

theorem regular_create (hr : 0 < r) (now : ℤ) :
    (create r now).Regular r ∧ (create r now).storedPermits = 0 := by
  have hmax : (resync ⟨0, 0, 0, 0⟩ now).maxPermits = 0 := maxPermits_resync
  have hburst : maxBurstSeconds * r = r := one_mul r
  have hstored : (create r now).storedPermits = 0 := by
    change (if 0 = (resync ⟨0, 0, 0, 0⟩ now).maxPermits then 0 else _) = (0 : ℚ)
    rw [hmax, if_pos rfl]
  refine ⟨⟨rfl, hburst, ?_⟩, hstored⟩
  rw [hstored]
  change 0 ≤ maxBurstSeconds * r
  rw [hburst]
  exact hr.le

/-! ### A sequence of calls -/

/-- A call whose wait is not cut off is granted at the next free ticket. -/
theorem time_of_uncut (h : s.Uncut permits now) :
    now + (s.acquire permits now).1 * nanosPerMilli = (s.resync now).nextFreeTicket := by
  have hle : 0 ≤ (s.resync now).nextFreeTicket - now := sub_nonneg.mpr le_nextFreeTicket_resync
  have hwait : (s.acquire permits now).1 = castMillis ((s.resync now).nextFreeTicket - now) := by
    change max (castMillis (int64 ((s.resync now).nextFreeTicket - now))) 0 = _
    rw [int64_of_isInt64 h.ahead]
    exact max_eq_left (castMillis_nonneg hle)
  rw [hwait, castMillis, Int.tdiv_mul_cancel h.moment]
  ring

theorem nextFreeTicket_acquire (hr : 0 < r) (hs : s.Regular r) (h : s.Uncut permits now) :
    r / 1000000000 * (((s.acquire permits now).2.nextFreeTicket : ℚ) -
      (s.resync now).nextFreeTicket) = (s.resync now).freshPermits permits := by
  rw [h.nextFreeTicket_acquire]
  push_cast
  rw [h.fresh, freshMillis, hs.stableInternal, nanosPerMilli]
  field_simp
  ring

theorem grants_cons (s : RateLimiter) (permits now : ℤ) (calls : List (ℤ × ℤ)) :
    grants s ((permits, now) :: calls) =
      ⟨permits, now + (s.acquire permits now).1 * nanosPerMilli, (s.resync now).storedPermits⟩ ::
        grants (s.acquire permits now).2 calls := rfl

/-- From one grant to the next: the permits are those that were stored, and those that the time to
the next free ticket makes up for. -/
theorem before_acquire (hr : 0 < r) (hs : s.Regular r) (h : s.Uncut permits now) {permits' now' : ℤ}
    (h' : (s.acquire permits now).2.Uncut permits' now') :
    Grant.Before (r / 1000000000)
      ⟨permits, now + (s.acquire permits now).1 * nanosPerMilli, (s.resync now).storedPermits⟩
      ⟨permits', now' + ((s.acquire permits now).2.acquire permits' now').1 * nanosPerMilli,
        ((s.acquire permits now).2.resync now').storedPermits⟩ := by
  have htime := time_of_uncut h
  have htime' := time_of_uncut h'
  have hfresh := nextFreeTicket_acquire hr hs h
  have hinternal : (s.acquire permits now).2.stableInternal = 1000 / r := by
    rw [acquire_snd]
    exact stableInternal_resync.trans hs.stableInternal
  have hrefill : ((s.acquire permits now).2.resync now').storedPermits ≤
      (s.acquire permits now).2.storedPermits + r / 1000000000 *
        (((s.acquire permits now).2.resync now').nextFreeTicket -
          (s.acquire permits now).2.nextFreeTicket) :=
    storedPermits_resync_le hr hinternal h'.elapsed
  have hspend := storedPermits_acquire s permits now
  have hpermits : (permits : ℚ) =
      (s.resync now).storedPermitsToSpend permits + (s.resync now).freshPermits permits := by
    rw [freshPermits]
    ring
  -- nothing is cut, so each call is granted at the very time of its ticket
  have hcast : (now : ℚ) + (s.acquire permits now).1 * nanosPerMilli =
      (s.resync now).nextFreeTicket := by
    exact_mod_cast htime
  have hcast' : (now' : ℚ) + ((s.acquire permits now).2.acquire permits' now').1 * nanosPerMilli =
      ((s.acquire permits now).2.resync now').nextFreeTicket := by
    exact_mod_cast htime'
  rw [Grant.Before]
  dsimp only
  rw [hcast, hcast', hpermits]
  rw [hspend] at hrefill
  linarith

/-- Without a cut the grants are those of a bucket. -/
theorem paced_grants (hr : 0 < r) (hs : s.Regular r) (hstored : 0 ≤ s.storedPermits)
    (hpos : ∀ call ∈ calls, 0 < call.1) (h : AllUncut s calls) :
    Paced (r / 1000000000) r (grants s calls) := by
  induction calls generalizing s with
  | nil => exact ⟨List.IsChain.nil, by simp [grants], by simp [grants], by simp [grants]⟩
  | cons call calls ih =>
    obtain ⟨permits, now⟩ := call
    obtain ⟨huncut, hrest⟩ := h
    have hpermits : 0 < permits := hpos (permits, now) List.mem_cons_self
    have hresync : (s.resync now).Regular r := regular_resync hs
    have hnext : (s.acquire permits now).2.Regular r := regular_acquire hr hs hpermits.le
    have hpaced := ih hnext (stored_nonneg_acquire s permits now)
      (fun call hcall => hpos call (List.mem_cons_of_mem _ hcall)) hrest
    rw [grants_cons]
    refine ⟨?_, ?_, ?_, ?_⟩
    · cases calls with
      | nil => exact List.IsChain.singleton _
      | cons call' calls =>
        obtain ⟨permits', now'⟩ := call'
        rw [grants_cons] at hpaced ⊢
        exact List.isChain_cons_cons.mpr ⟨before_acquire hr hs huncut hrest.1, hpaced.before⟩
    · intro g hg
      obtain rfl | hg := List.mem_cons.mp hg
      · exact Int.cast_nonneg hpermits.le
      · exact hpaced.permits_nonneg g hg
    · intro g hg
      obtain rfl | hg := List.mem_cons.mp hg
      · exact stored_nonneg_resync hr hs hstored huncut.elapsed
      · exact hpaced.stored_nonneg g hg
    · intro g hg
      obtain rfl | hg := List.mem_cons.mp hg
      · exact hresync.stored_le.trans_eq hresync.maxPermits
      · exact hpaced.stored_le g hg

/-! ### Whole milliseconds -/

/-- The stored permits are worth a whole number of milliseconds, and the next free ticket is at a
whole millisecond. -/
structure Whole (s : RateLimiter) : Prop where
  stored : ∃ k : ℤ, s.storedPermits * s.stableInternal = k
  next : nanosPerMilli ∣ s.nextFreeTicket

theorem wholePart_intCast (k : ℤ) : wholePart k = k := Int.tdiv_one k

theorem whole_resync (hr : 0 < r) (hs : s.Regular r) (hwhole : s.Whole)
    (hnow : nanosPerMilli ∣ now) :
    (s.resync now).Whole := by
  obtain ⟨k, hk⟩ := hwhole.stored
  rw [resync]
  split
  · have hinternal : 0 < s.stableInternal := by
      rw [hs.stableInternal]
      positivity
    have hmax : s.maxPermits * s.stableInternal = (1000 : ℤ) := by
      rw [hs.maxPermits, hs.stableInternal]
      push_cast
      field_simp
    refine ⟨⟨min 1000 (k + castMillis (int64 (now - s.nextFreeTicket))), ?_⟩, hnow⟩
    change min s.maxPermits (s.storedPermits + _ / s.stableInternal) * s.stableInternal = _
    rw [min_mul_of_nonneg _ _ hinternal.le, hmax, add_mul, hk, div_mul_cancel₀ _ hinternal.ne']
    push_cast
    rfl
  · exact hwhole

/-- The fresh permits of a call are worth a whole number of milliseconds. -/
theorem exists_freshPermits_mul {n : ℤ} (hr : 0 < r) (hs : s.Regular r) (hwhole : s.Whole)
    (hn : 1000 / r = n) (permits : ℤ) : ∃ k : ℤ, s.freshPermits permits * s.stableInternal = k := by
  obtain ⟨k, hk⟩ := hwhole.stored
  have hinternal : 0 ≤ s.stableInternal := by
    rw [hs.stableInternal]
    positivity
  refine ⟨permits * n - min (permits * n) k, ?_⟩
  rw [freshPermits, storedPermitsToSpend, sub_mul, min_mul_of_nonneg _ _ hinternal, hk,
    hs.stableInternal, hn]
  push_cast
  rfl

/-- With a whole number of milliseconds between two permits, and calls at whole milliseconds,
nothing is cut off as long as no time leaves its 64 bits. -/
theorem uncut_of_whole {n : ℤ} (hr : 0 < r) (hs : s.Regular r) (hwhole : s.Whole)
    (hn : 1000 / r = n)
    (hcalls : ∀ call ∈ calls, 0 < call.1 ∧ nanosPerMilli ∣ call.2) (hrange : AllInRange s calls) :
    AllUncut s calls := by
  induction calls generalizing s with
  | nil => trivial
  | cons call calls ih =>
    obtain ⟨permits, now⟩ := call
    obtain ⟨hpermits, hnow⟩ := hcalls (permits, now) List.mem_cons_self
    obtain ⟨hinRange, hrest⟩ := hrange
    have hresync : (s.resync now).Regular r := regular_resync hs
    have hwhole' : (s.resync now).Whole := whole_resync hr hs hwhole hnow
    obtain ⟨k, hk⟩ := exists_freshPermits_mul hr hresync hwhole' hn permits
    have hmillis : s.freshMillis permits now = k := by rw [freshMillis, ← hk, stableInternal_resync]
    refine ⟨⟨hinRange, by rw [hmillis, wholePart_intCast], Int.dvd_sub hwhole'.next hnow⟩, ?_⟩
    apply ih (regular_acquire hr hs hpermits.le) ?_
      (fun call hcall => hcalls call (List.mem_cons_of_mem _ hcall)) hrest
    obtain ⟨j, hj⟩ := hwhole'.stored
    have hn' : (s.resync now).stableInternal = n := hresync.stableInternal.trans hn
    have hinternal : (s.acquire permits now).2.stableInternal = (s.resync now).stableInternal := by
      rw [acquire_snd]
    have hspend : (s.resync now).storedPermitsToSpend permits =
        permits - (s.resync now).freshPermits permits := by
      rw [freshPermits, sub_sub_cancel]
    refine ⟨⟨j - (permits * n - k), ?_⟩, ?_⟩
    · rw [storedPermits_acquire, hinternal, hspend, sub_mul, sub_mul, hj, hk, hn']
      push_cast
      ring
    · rw [hinRange.nextFreeTicket_acquire]
      exact Int.dvd_add hwhole'.next (Int.dvd_mul_left _ _)

/-! ### Windows -/

/-- The permits in a window of a limiter whose grants are not cut off. -/
theorem withinRate_of_uncut (hr : 0 < r) (hs : s.Regular r) (hstored : 0 ≤ s.storedPermits)
    (hpos : ∀ call ∈ calls, 0 < call.1) (h : AllUncut s calls) {a b : ℚ} (hab : a ≤ b) :
    WithinRate r s calls a b := by
  rw [WithinRate, grantsIn]
  have hwindow := (paced_grants hr hs hstored hpos h).sum_window_le (by positivity) hr.le hab
    (p := fun g => a ≤ g.time ∧ g.time ≤ b) (fun g hg => of_decide_eq_true hg)
  rw [hs.maxPermits]
  have hrate : r / 1000000000 * (b - a) = r * ((b - a) / 1000000000) := by ring
  rwa [hrate] at hwindow

end Calls

/-! ### Calls that change the rate -/

/-- A call of `acquire` or `set_rate`. -/
inductive Call
  | acquire (permits now : ℤ)
  | setRate (permitsPerSecond : ℚ) (now : ℤ)

/-- The limiter behind a call. -/
def apply (s : RateLimiter) : Call → RateLimiter
  | .acquire permits now => (s.acquire permits now).2
  | .setRate permitsPerSecond now => s.setRate permitsPerSecond now

/-- The calls are given permits and rates that are positive. -/
def Call.Positive : Call → Prop
  | .acquire permits _ => 0 < permits
  | .setRate permitsPerSecond _ => 0 < permitsPerSecond

/-- When a call comes. -/
def Call.now : Call → ℤ
  | .acquire _ now => now
  | .setRate _ now => now

/-- The time since the next free ticket fits into 64 bits at each call. -/
def AllElapsed : RateLimiter → List Call → Prop
  | _, [] => True
  | s, call :: history => s.Elapsed call.now ∧ AllElapsed (s.apply call) history

/-- The rate behind some calls. -/
def rateAfter : ℚ → List Call → ℚ
  | r, [] => r
  | r, .acquire _ _ :: history => rateAfter r history
  | _, .setRate permitsPerSecond _ :: history => rateAfter permitsPerSecond history

theorem regular_foldl {r : ℚ} {s : RateLimiter} (hr : 0 < r) (hs : s.Regular r)
    {history : List Call}
    (hpos : ∀ call ∈ history, call.Positive) :
    0 < rateAfter r history ∧ (history.foldl apply s).Regular (rateAfter r history) := by
  induction history generalizing r s with
  | nil => exact ⟨hr, hs⟩
  | cons call history ih =>
    have hcall := hpos call List.mem_cons_self
    have hrest : ∀ call ∈ history, call.Positive :=
      fun call hmem => hpos call (List.mem_cons_of_mem _ hmem)
    cases call with
    | acquire permits now => exact ih hr (regular_acquire hr hs (le_of_lt hcall)) hrest
    | setRate r' now => exact ih hcall (regular_setRate hr hcall hs) hrest

theorem stored_nonneg_foldl {r : ℚ} {s : RateLimiter} (hr : 0 < r) (hs : s.Regular r)
    (hstored : 0 ≤ s.storedPermits) {history : List Call} (hpos : ∀ call ∈ history, call.Positive)
    (helapsed : AllElapsed s history) : 0 ≤ (history.foldl apply s).storedPermits := by
  induction history generalizing r s with
  | nil => exact hstored
  | cons call history ih =>
    have hcall := hpos call List.mem_cons_self
    have hrest : ∀ call ∈ history, call.Positive :=
      fun call hmem => hpos call (List.mem_cons_of_mem _ hmem)
    cases call with
    | acquire permits now =>
      exact ih hr (regular_acquire hr hs (le_of_lt hcall)) (stored_nonneg_acquire s permits now) hrest
        helapsed.2
    | setRate r' now =>
      exact ih hcall (regular_setRate hr hcall hs)
        (stored_nonneg_setRate hr hcall hs hstored helapsed.1) hrest helapsed.2

/-- The limiter behind some calls. -/
def after (r : ℚ) (created : ℤ) (history : List Call) : RateLimiter :=
  history.foldl apply (create r created)

/-- After any calls a limiter stores no more permits than it may, and as long as its rate stays and
nothing is cut off, the permits in a window are bounded. -/
theorem rate_of_uncut {r : ℚ} (hr : 0 < r) (created : ℤ) (history : List Call)
    (hhistory : ∀ call ∈ history, call.Positive) :
    (after r created history).storedPermits ≤ (after r created history).maxPermits ∧
      (AllElapsed (create r created) history →
        ∀ calls : List (ℤ × ℤ), (∀ call ∈ calls, 0 < call.1) →
          AllUncut (after r created history) calls → ∀ a b : ℚ, a ≤ b →
            WithinRate (rateAfter r history) (after r created history) calls a b) := by
  obtain ⟨hcreated, hempty⟩ := regular_create hr created
  obtain ⟨hrate, hregular⟩ := regular_foldl hr hcreated hhistory
  refine ⟨hregular.stored_le, fun helapsed calls hpos huncut a b hab => ?_⟩
  have hstored := stored_nonneg_foldl hr hcreated hempty.ge hhistory helapsed
  exact withinRate_of_uncut hrate hregular hstored hpos huncut hab

/-- Five permits per second, and then ten: the second call waits for half a second, and the third
one finds a permit in store. -/
theorem rate_of_uncut_ten :
    WithinRate 10 (after 5 0 [.acquire 1 0, .setRate 10 200000000])
      [(5, 200000000), (1, 200000000), (2, 900000000)] 200000000 900000000 := by
  have hrate : (0 : ℚ) < 5 := by norm_num
  have hpos : ∀ call ∈ [Call.acquire 1 0, .setRate 10 200000000], call.Positive := by
    intro call hcall
    obtain rfl | rfl : call = _ ∨ call = _ := by simpa using hcall
    · exact Int.one_pos
    · exact (by norm_num : (0 : ℚ) < 10)
  have hwhole : (after 5 0 [.acquire 1 0, .setRate 10 200000000]).Whole :=
    ⟨⟨0, by decide +kernel⟩, by decide +kernel⟩
  have hrange : AllInRange (after 5 0 [.acquire 1 0, .setRate 10 200000000])
      [(5, 200000000), (1, 200000000), (2, 900000000)] :=
    ⟨by decide +kernel, by decide +kernel, by decide +kernel, trivial⟩
  obtain ⟨hrate', hregular⟩ := regular_foldl hrate (regular_create hrate 0).1 hpos
  have huncut := uncut_of_whole (n := 100) hrate' hregular hwhole (by norm_num [rateAfter])
    (by decide) hrange
  have helapsed : AllElapsed (create 5 0) [.acquire 1 0, .setRate 10 200000000] :=
    ⟨by decide +kernel, by decide +kernel, trivial⟩
  exact (rate_of_uncut hrate 0 _ hpos).2 helapsed _ (by decide) huncut _ _ (by norm_num)

/-- A limiter of a thousand permits per second that has been idle for a second: the store is
emptied, one permit is taken half a millisecond later, and the next call does not wait for what is
left of that millisecond. -/
def burst : List (ℤ × ℤ) := [(1000, 1000000000), (1, 1000500000), (5, 1000600000)]

theorem not_withinRate_burst :
    ¬ WithinRate 1000 (create 1000 0) burst 1000000000 1000600000 := by
  rw [WithinRate]
  decide +kernel

end RateLimiter

end Yalantinglibs.CoroIo
