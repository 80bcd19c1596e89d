import Mathlib.Algebra.Order.Group.Nat
import Mathlib.Algebra.Order.Monoid.NatCast
import Mathlib.Algebra.Order.Ring.Nat
import Mathlib.Order.Monotone.Basic
import Mathlib.Tactic.Linarith
import Mathlib.Tactic.Ring

/-!
# Magnitudes of binary floating point numbers

A number without its sign is an exponent field over a fraction field of `p` bits. The two fields
read as one number `m` are in the order of the magnitudes, and to drop bits at the end of the
fraction is a small relative error.

A magnitude is counted in units of the smallest subnormal number.

## Main definitions

* `magnitude` — the magnitude of the fields `m`

## Main results

* `magnitude_strictMono` — the fields are in the order of the magnitudes
* `magnitude_sub_truncate_le` — the error of dropping the last bits of the fraction
-/

set_option autoImplicit false

namespace Yalantinglibs.BinaryFloat

/-- The fraction of a subnormal number, or `2 ^ p` and the fraction, shifted by the exponent. -/
def magnitude (p m : ℕ) : ℕ :=
  if m < 2 ^ p then m else (2 ^ p + m % 2 ^ p) * 2 ^ (m / 2 ^ p - 1)

variable {p : ℕ}

theorem magnitude_of_lt {m : ℕ} (h : m < 2 ^ p) : magnitude p m = m := if_pos h

/-- The two fields taken apart. -/
theorem magnitude_add (e : ℕ) {f : ℕ} (hf : f < 2 ^ p) :
    magnitude p ((e + 1) * 2 ^ p + f) = (2 ^ p + f) * 2 ^ e := by
  have hpos : 0 < 2 ^ p := Nat.two_pow_pos p
  have hnot : ¬(e + 1) * 2 ^ p + f < 2 ^ p := by
    rw [Nat.not_lt, Nat.add_mul, Nat.one_mul]
    exact Nat.le_add_right_of_le (Nat.le_add_left _ _)
  have hmod : ((e + 1) * 2 ^ p + f) % 2 ^ p = f := by
    rw [Nat.mul_comm, Nat.mul_add_mod, Nat.mod_eq_of_lt hf]
  have hdiv : ((e + 1) * 2 ^ p + f) / 2 ^ p = e + 1 := by
    rw [Nat.mul_comm, Nat.mul_add_div hpos, Nat.div_eq_of_lt hf, Nat.add_zero]
  rw [magnitude, if_neg hnot, hmod, hdiv, Nat.add_sub_cancel]

/-- Numbers that are not subnormal have an exponent and a fraction. -/
theorem exists_fields {m : ℕ} (h : 2 ^ p ≤ m) :
    ∃ e f, f < 2 ^ p ∧ m = (e + 1) * 2 ^ p + f := by
  have hpos : 0 < 2 ^ p := Nat.two_pow_pos p
  have hdiv : 1 ≤ m / 2 ^ p := (Nat.one_le_div_iff hpos).mpr h
  refine ⟨m / 2 ^ p - 1, m % 2 ^ p, Nat.mod_lt _ hpos, ?_⟩
  rw [Nat.sub_add_cancel hdiv, Nat.mul_comm, Nat.div_add_mod]

theorem magnitude_exponent (e : ℕ) : magnitude p ((e + 1) * 2 ^ p) = 2 ^ (p + e) := by
  have h := magnitude_add e (Nat.two_pow_pos p)
  rw [Nat.add_zero] at h
  rw [h, Nat.add_zero, Nat.pow_add]

theorem magnitude_lt_succ (m : ℕ) : magnitude p m < magnitude p (m + 1) := by
  have hpos : 0 < 2 ^ p := Nat.two_pow_pos p
  by_cases h : m + 1 < 2 ^ p
  · rw [magnitude_of_lt h, magnitude_of_lt (Nat.lt_of_succ_lt h)]
    exact Nat.lt_succ_self m
  · rcases Nat.lt_or_ge m (2 ^ p) with hm | hm
    · -- the largest subnormal number
      have hsucc : m + 1 = (0 + 1) * 2 ^ p + 0 := by omega
      rw [magnitude_of_lt hm, hsucc, magnitude_add 0 hpos]
      omega
    · obtain ⟨e, f, hf, rfl⟩ := exists_fields hm
      have he : 0 < 2 ^ e := Nat.two_pow_pos e
      rcases Nat.lt_or_ge (f + 1) (2 ^ p) with hf' | hf'
      · rw [magnitude_add e hf, Nat.add_assoc, magnitude_add e hf']
        exact Nat.mul_lt_mul_of_pos_right (by omega) he
      · -- the largest fraction is followed by the next exponent
        have hsucc : (e + 1) * 2 ^ p + f + 1 = (e + 1 + 1) * 2 ^ p + 0 := by
          rw [Nat.add_mul (e + 1) 1]
          omega
        rw [magnitude_add e hf, hsucc, magnitude_add (e + 1) hpos, Nat.pow_succ, Nat.add_zero,
          Nat.mul_comm (2 ^ e) 2, ← Nat.mul_assoc]
        exact Nat.mul_lt_mul_of_pos_right (by omega) he

theorem magnitude_strictMono : StrictMono (magnitude p) :=
  strictMono_nat_of_lt_succ magnitude_lt_succ

theorem magnitude_le_iff {m n : ℕ} : magnitude p m ≤ magnitude p n ↔ m ≤ n :=
  magnitude_strictMono.le_iff_le

/-- To drop the last `t` bits of the fraction takes less than the part `2 ^ t / 2 ^ p` away. -/
theorem magnitude_sub_truncate_le {t m : ℕ} (ht : t ≤ p) (hm : 2 ^ p ≤ m) :
    (magnitude p m - magnitude p (m / 2 ^ t * 2 ^ t)) * 2 ^ (p - t) ≤ magnitude p m := by
  obtain ⟨e, f, hf, rfl⟩ := exists_fields hm
  have hsplit : 2 ^ p = 2 ^ (p - t) * 2 ^ t := by rw [← Nat.pow_add, Nat.sub_add_cancel ht]
  have htrunc : ((e + 1) * 2 ^ p + f) / 2 ^ t * 2 ^ t = (e + 1) * 2 ^ p + f / 2 ^ t * 2 ^ t := by
    rw [hsplit, ← Nat.mul_assoc, Nat.add_comm, Nat.add_mul_div_right _ _ (Nat.two_pow_pos t),
      Nat.add_mul, Nat.add_comm]
  have hle : f / 2 ^ t * 2 ^ t ≤ f := Nat.div_mul_le_self f (2 ^ t)
  have hrest : f - f / 2 ^ t * 2 ^ t ≤ 2 ^ t := by
    have := Nat.div_add_mod' f (2 ^ t)
    have := Nat.mod_lt f (Nat.two_pow_pos t)
    omega
  rw [htrunc, magnitude_add e hf, magnitude_add e (Nat.lt_of_le_of_lt hle hf), ← Nat.sub_mul]
  have hsub : 2 ^ p + f - (2 ^ p + f / 2 ^ t * 2 ^ t) = f - f / 2 ^ t * 2 ^ t := by omega
  rw [hsub, Nat.mul_right_comm]
  refine Nat.mul_le_mul_right _ ?_
  calc (f - f / 2 ^ t * 2 ^ t) * 2 ^ (p - t)
      ≤ 2 ^ t * 2 ^ (p - t) := Nat.mul_le_mul_right _ hrest
    _ = 2 ^ p := by rw [Nat.mul_comm, ← hsplit]
    _ ≤ 2 ^ p + f := Nat.le_add_right _ _

end Yalantinglibs.BinaryFloat
