import Mathlib.Data.List.Induction
import Mathlib.Tactic.Common

/-!
# Keeping the last value

A function with a cache for one value: that of the last key that was asked for. What the cache holds
before it is first filled need not be a value of the function, and it is what is answered as long as
only its key is asked for.

## Main definitions

* `LastValue` — the cache
* `LastValue.request`, `LastValue.after` — a request, and the cache after some

## Main results

* `LastValue.request_after` — the answer to a request after some others
-/

set_option autoImplicit false

namespace Yalantinglibs

/-- A key and a value. -/
structure LastValue (K V : Type*) where
  key : K
  value : V

namespace LastValue

variable {K V : Type*} [DecidableEq K] (f : K → V)

/-- The answer to a request, and the cache behind it. -/
def request (c : LastValue K V) (k : K) : V × LastValue K V :=
  if c.key = k then (c.value, c) else (f k, ⟨k, f k⟩)

/-- The cache after some requests. -/
def after (c : LastValue K V) (ks : List K) : LastValue K V :=
  ks.foldl (fun c k => (c.request f k).2) c

variable {f} {c : LastValue K V}

theorem after_concat (ks : List K) (k : K) :
    c.after f (ks ++ [k]) = ((c.after f ks).request f k).2 := by
  rw [after, List.foldl_append]
  rfl

/-- A cache that holds a value of the function goes on to do so. -/
theorem request_value (h : c.value = f c.key) (k : K) :
    (c.request f k).1 = f k ∧ (c.request f k).2.value = f (c.request f k).2.key := by
  rw [request]
  by_cases hk : c.key = k
  · rw [if_pos hk, ← hk]
    exact ⟨h, h⟩
  · rw [if_neg hk]
    exact ⟨rfl, rfl⟩

/-- The cache is as it was before as long as only its key is asked for; then it holds a value of the
function. -/
theorem after_spec (ks : List K) : (∀ k ∈ ks, k = c.key) ∧ c.after f ks = c ∨
    (∃ k ∈ ks, k ≠ c.key) ∧ (c.after f ks).value = f (c.after f ks).key := by
  induction ks using List.reverseRecOn with
  | nil => exact Or.inl ⟨fun k hk => absurd hk List.not_mem_nil, rfl⟩
  | append_singleton ks k ih =>
    rw [after_concat]
    obtain ⟨hall, hafter⟩ | ⟨⟨k', hk', hne⟩, hvalue⟩ := ih
    · rw [hafter, request]
      by_cases hk : c.key = k
      · rw [if_pos hk]
        refine Or.inl ⟨fun k' hk' => ?_, rfl⟩
        obtain h | h := List.mem_append.mp hk'
        · exact hall k' h
        · exact (List.mem_singleton.mp h).trans hk.symm
      · rw [if_neg hk]
        exact Or.inr ⟨⟨k, List.mem_append_right ks List.mem_cons_self, fun h => hk h.symm⟩, rfl⟩
    · exact Or.inr ⟨⟨k', List.mem_append_left [k] hk', hne⟩, (request_value hvalue k).2⟩

/-- The answer to a request after some others. -/
theorem request_after (ks : List K) (k : K) : ((c.after f ks).request f k).1 =
    if k = c.key ∧ ∀ k' ∈ ks, k' = c.key then c.value else f k := by
  obtain ⟨hall, hafter⟩ | ⟨⟨k', hk', hne⟩, hvalue⟩ := after_spec (f := f) (c := c) ks
  · rw [hafter, request]
    by_cases hk : c.key = k
    · rw [if_pos hk, if_pos ⟨hk.symm, hall⟩]
    · rw [if_neg hk, if_neg fun h => hk h.1.symm]
  · rw [(request_value hvalue k).1, if_neg fun h => hne (h.2 k' hk')]

end LastValue

end Yalantinglibs
