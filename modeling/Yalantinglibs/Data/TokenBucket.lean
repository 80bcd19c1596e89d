import Mathlib.Algebra.BigOperators.Group.List.Basic
import Mathlib.Algebra.Order.Field.Basic
import Mathlib.Data.List.Chain
import Mathlib.Tactic.Linarith

/-!
# Token buckets

A bucket that holds a number of permits and is filled at a rate, up to a bound. A grant may take
more than there is; the bucket then has to be filled before the next one. So from one grant to the
next the permits of the first are made up by what was in the bucket and by the time that passes, and
in any window of time the grants but the last do not have more permits than a full bucket and what
the window brings.

## Main definitions

* `Grant`, `Grant.Before` — a grant, and what comes before the next one
* `Paced` — the grants of a bucket

## Main results

* `Paced.sum_window_le` — the permits of the grants in a window
-/

set_option autoImplicit false

namespace Yalantinglibs

namespace TokenBucket

/-- A grant, with what the bucket holds before it. -/
structure Grant (K : Type*) where
  permits : K
  time : K
  stored : K

section Grants

variable {K : Type*} [CommRing K] {g : Grant K} {gs : List (Grant K)}

/-- The permits of some grants. -/
def total (gs : List (Grant K)) : K := (gs.map Grant.permits).sum

/-- The permits of the last one of some grants, if there is one. -/
def lastPermits (gs : List (Grant K)) : K := (gs.getLast?.map Grant.permits).getD 0

theorem total_cons (g : Grant K) (gs : List (Grant K)) :
    total (g :: gs) = g.permits + total gs := by
  rw [total, List.map_cons, List.sum_cons, total]

theorem lastPermits_cons (h : gs ≠ []) : lastPermits (g :: gs) = lastPermits gs := by
  rw [lastPermits, List.getLast?_cons_of_ne_nil h, lastPermits]

end Grants

section Buckets

variable {K : Type*} [CommRing K] [LinearOrder K]

/-- The permits of a grant are made up by what the bucket loses, and by the time to the next one. -/
def Grant.Before (rate : K) (g g' : Grant K) : Prop :=
  g.permits ≤ g.stored - g'.stored + rate * (g'.time - g.time)

/-- The grants of a bucket that holds `burst` permits at most, in their order. -/
structure Paced (rate burst : K) (gs : List (Grant K)) : Prop where
  before : gs.IsChain (Grant.Before rate)
  permits_nonneg : ∀ g ∈ gs, 0 ≤ g.permits
  stored_nonneg : ∀ g ∈ gs, 0 ≤ g.stored
  stored_le : ∀ g ∈ gs, g.stored ≤ burst

variable {rate burst : K} {g : Grant K} {gs : List (Grant K)}

theorem Paced.tail (h : Paced rate burst (g :: gs)) : Paced rate burst gs :=
  ⟨h.before.tail, fun x hx => h.permits_nonneg x (List.mem_cons_of_mem g hx),
    fun x hx => h.stored_nonneg x (List.mem_cons_of_mem g hx),
    fun x hx => h.stored_le x (List.mem_cons_of_mem g hx)⟩

end Buckets

section Windows

variable {K : Type*} [CommRing K] [LinearOrder K] [IsStrictOrderedRing K]
variable {rate burst a b : K} {g : Grant K} {gs : List (Grant K)} {p : Grant K → Bool}

/-- What comes from a grant to a later time, with what the bucket holds before the grant. -/
theorem Paced.level_nonneg (hrate : 0 ≤ rate) (h : Paced rate burst (g :: gs)) (hb : g.time ≤ b) :
    0 ≤ g.stored + rate * (b - g.time) :=
  add_nonneg (h.stored_nonneg g List.mem_cons_self) (mul_nonneg hrate (sub_nonneg.mpr hb))

/-- Of the grants up to a time all but the last are made up by what the bucket holds before the
first one, and by what comes from then on. -/
theorem Paced.total_le (hrate : 0 ≤ rate) (h : Paced rate burst (g :: gs))
    (hp : ∀ x, p x = true → x.time ≤ b) (hne : (g :: gs).filter p ≠ []) :
    total ((g :: gs).filter p) ≤
      g.stored + rate * (b - g.time) + lastPermits ((g :: gs).filter p) := by
  have hsingle (hg : p g = true) :
      total [g] ≤ g.stored + rate * (b - g.time) + lastPermits [g] := by
    have hlevel := h.level_nonneg hrate (hp g hg)
    rw [total_cons]
    change g.permits + 0 ≤ _ + g.permits
    linarith
  induction gs generalizing g with
  | nil =>
    by_cases hg : p g = true
    · rw [List.filter_cons_of_pos hg]
      exact hsingle hg
    · rw [List.filter_cons_of_neg hg] at hne
      exact absurd rfl hne
  | cons g' gs ih =>
    have hbefore : g.permits ≤ g.stored - g'.stored + rate * (g'.time - g.time) :=
      (List.isChain_cons_cons.mp h.before).1
    have hrest (hne' : (g' :: gs).filter p ≠ []) := by
      apply ih h.tail hne'
      intro hg'
      have hlevel := h.tail.level_nonneg hrate (hp g' hg')
      rw [total_cons]
      change g'.permits + 0 ≤ _ + g'.permits
      linarith
    by_cases hg : p g = true
    · rw [List.filter_cons_of_pos hg]
      by_cases hnil : (g' :: gs).filter p = []
      · rw [hnil]
        exact hsingle hg
      · have hrest := hrest hnil
        rw [total_cons, lastPermits_cons hnil]
        linarith
    · rw [List.filter_cons_of_neg hg] at hne ⊢
      have hpermits := h.permits_nonneg g List.mem_cons_self
      have hrest := hrest hne
      linarith

/-- The permits of the grants in a window: a full bucket, what the window brings, and the permits of
the last grant. -/
theorem Paced.sum_window_le (hrate : 0 ≤ rate) (hburst : 0 ≤ burst) (h : Paced rate burst gs)
    (hab : a ≤ b) (hp : ∀ x, p x = true → a ≤ x.time ∧ x.time ≤ b) :
    total (gs.filter p) ≤ rate * (b - a) + burst + lastPermits (gs.filter p) := by
  induction gs with
  | nil =>
    have hwindow := mul_nonneg hrate (sub_nonneg.mpr hab)
    change (0 : K) ≤ rate * (b - a) + burst + 0
    linarith
  | cons g gs ih =>
    by_cases hg : p g = true
    · have hne : (g :: gs).filter p ≠ [] := by
        rw [List.filter_cons_of_pos hg]
        exact List.cons_ne_nil _ _
      have htotal := h.total_le hrate (fun x hx => (hp x hx).2) hne
      have hstored := h.stored_le g List.mem_cons_self
      have htime := mul_le_mul_of_nonneg_left (hp g hg).1 hrate
      linarith
    · rw [List.filter_cons_of_neg hg]
      exact ih h.tail

end Windows

end TokenBucket

end Yalantinglibs
