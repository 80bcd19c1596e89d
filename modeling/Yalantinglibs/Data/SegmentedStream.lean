import Mathlib.Data.List.Basic
import Mathlib.Tactic.Common

/-!
# Streams that arrive in segments

A connection delivers a stream in segments, and where it is cut is up to the network. A reader that
asks for a number of elements takes them from as many segments as it needs and leaves the rest of
the last one, so that it does not see the cuts. A reader that waits for a delimiter takes whole
segments, and may have more than it asked for.

## Main definitions

* `readExactly` — the next elements of a stream
* `endOf` — the end of the first occurrence of a delimiter
* `readUntil` — segments up to a delimiter

## Main results

* `readExactly_of_le`, `readExactly_append` — what is read depends on the stream, not on its
  segments
* `readExactly_eq_none` — a stream that is too short is waited for
* `readUntil_of_endOf`, `readUntil_eq_none` — the delimiter that is found is the first one of the
  stream
-/

set_option autoImplicit false

namespace Yalantinglibs

namespace SegmentedStream

variable {α : Type*} {n : ℕ} {segs : List (List α)}

/-- The next `n` elements of a stream, and the segments left behind them; `none` where the stream
does not have as many. -/
def readExactly : ℕ → List (List α) → Option (List α × List (List α))
  | 0, segs => some ([], segs)
  | _ + 1, [] => none
  | n + 1, seg :: segs =>
    if n + 1 ≤ seg.length then some (seg.take (n + 1), seg.drop (n + 1) :: segs)
    else (readExactly (n + 1 - seg.length) segs).map fun r => (seg ++ r.1, r.2)

@[simp] theorem readExactly_zero (segs : List (List α)) : readExactly 0 segs = some ([], segs) := by
  cases segs <;> rfl

/-- Enough elements are taken from the front of the stream. -/
theorem readExactly_of_le (h : n ≤ segs.flatten.length) :
    ∃ segs', readExactly n segs = some (segs.flatten.take n, segs') ∧
      segs'.flatten = segs.flatten.drop n := by
  induction segs generalizing n with
  | nil =>
    obtain rfl : n = 0 := by simpa using h
    exact ⟨[], rfl, rfl⟩
  | cons seg segs ih =>
    cases n with
    | zero => exact ⟨seg :: segs, rfl, rfl⟩
    | succ n =>
      rw [List.flatten_cons, List.length_append] at h
      rw [readExactly, List.flatten_cons]
      by_cases hle : n + 1 ≤ seg.length
      · rw [if_pos hle, List.take_append_of_le_length hle, List.drop_append_of_le_length hle]
        exact ⟨seg.drop (n + 1) :: segs, rfl, rfl⟩
      · -- the whole segment is taken, and the rest from the segments behind it
        rw [if_neg hle, List.take_append, List.drop_append, List.take_of_length_le (by omega),
          List.drop_of_length_le (by omega)]
        obtain ⟨segs', hread, hrest⟩ := ih (n := n + 1 - seg.length) (by omega)
        rw [hread]
        exact ⟨segs', rfl, hrest⟩

/-- What is read depends on the stream, not on its segments. -/
theorem readExactly_append {as rest : List α} (h : segs.flatten = as ++ rest)
    (hn : as.length = n) :
    ∃ segs', readExactly n segs = some (as, segs') ∧ segs'.flatten = rest := by
  have hle : n ≤ segs.flatten.length := by
    rw [h, List.length_append]
    omega
  obtain ⟨segs', hread, hrest⟩ := readExactly_of_le hle
  rw [h, List.take_left' hn] at hread
  rw [h, List.drop_left' hn] at hrest
  exact ⟨segs', hread, hrest⟩

/-- A stream that is too short is waited for. -/
theorem readExactly_eq_none (h : segs.flatten.length < n) : readExactly n segs = none := by
  induction segs generalizing n with
  | nil =>
    cases n with
    | zero => cases h
    | succ n => rfl
  | cons seg segs ih =>
    cases n with
    | zero => cases h
    | succ n =>
      rw [List.flatten_cons, List.length_append] at h
      rw [readExactly, if_neg (by omega), ih (by omega), Option.map_none]

theorem readExactly_length {r : List α × List (List α)} (h : readExactly n segs = some r) :
    r.1.length = n := by
  obtain hlt | hle := Nat.lt_or_ge segs.flatten.length n
  · rw [readExactly_eq_none hlt] at h
    cases h
  · obtain ⟨segs', hread, -⟩ := readExactly_of_le hle
    rw [hread, Option.some.injEq] at h
    rw [← h, List.length_take, Nat.min_eq_left hle]

/-! ### Delimiters -/

section Delimiter

variable [DecidableEq α] {pat as bs : List α}

/-- The number of elements up to the end of the first occurrence of `pat`. -/
def endOf (pat : List α) : List α → Option ℕ
  | [] => if pat = [] then some 0 else none
  | a :: as => if pat <+: a :: as then some pat.length else (endOf pat as).map (· + 1)

theorem endOf_bounds (h : endOf pat as = some n) : pat.length ≤ n ∧ n ≤ as.length := by
  induction as generalizing n with
  | nil =>
    rw [endOf] at h
    split at h
    · next hnil =>
      cases h
      exact ⟨by rw [hnil]; exact Nat.le_refl 0, Nat.le_refl 0⟩
    · cases h
  | cons a as ih =>
    rw [endOf] at h
    split at h
    · next hprefix =>
      cases h
      exact ⟨Nat.le_refl _, hprefix.length_le⟩
    · obtain ⟨m, hm, rfl⟩ := Option.map_eq_some_iff.mp h
      obtain ⟨hlow, hhigh⟩ := ih hm
      exact ⟨Nat.le_succ_of_le hlow, Nat.succ_le_succ hhigh⟩

/-- What follows the first occurrence does not matter. -/
theorem endOf_append (h : endOf pat as = some n) (bs : List α) :
    endOf pat (as ++ bs) = some n := by
  induction as generalizing n with
  | nil =>
    rw [endOf] at h
    split at h
    · next hnil =>
      cases h
      subst hnil
      cases bs <;> simp [endOf]
    · cases h
  | cons a as ih =>
    rw [endOf] at h
    rw [List.cons_append, endOf]
    split at h
    · next hprefix =>
      have hlonger : pat <+: a :: (as ++ bs) := hprefix.trans (List.prefix_append (a :: as) bs)
      rw [if_pos hlonger, h]
    · next hprefix =>
      obtain ⟨m, hm, rfl⟩ := Option.map_eq_some_iff.mp h
      -- an occurrence that starts here would end before the one that is found
      have hlate : ¬ pat <+: a :: (as ++ bs) := by
        intro hlong
        obtain ⟨hlow, hhigh⟩ := endOf_bounds hm
        apply hprefix
        apply List.prefix_of_prefix_length_le hlong (List.prefix_append (a :: as) bs)
        rw [List.length_cons]
        omega
      rw [if_neg hlate, ih hm, Option.map_some]

/-- A delimiter is found behind elements that do not have its first one. -/
theorem endOf_of_not_mem {d : α} {ds : List α} (h : d ∉ as) (bs : List α) :
    endOf (d :: ds) (as ++ (d :: ds ++ bs)) = some (as.length + (d :: ds).length) := by
  induction as with
  | nil =>
    have hprefix : d :: ds <+: d :: (ds ++ bs) := List.prefix_append (d :: ds) bs
    rw [List.nil_append, List.cons_append, endOf, if_pos hprefix, List.length_nil, Nat.zero_add]
  | cons a as ih =>
    rw [List.mem_cons, not_or] at h
    have hprefix : ¬ d :: ds <+: a :: (as ++ (d :: ds ++ bs)) := by
      rw [List.cons_prefix_cons]
      exact fun hd => h.1 hd.1
    rw [List.cons_append, endOf, if_neg hprefix, ih h.2, Option.map_some, List.length_cons,
      List.length_cons]
    congr 1
    omega

/-- Read segments until there is a delimiter: the end of the first one, all that is there by then,
and the segments left; `none` where the stream has none. -/
def readUntil (pat : List α) : List α → List (List α) → Option (ℕ × List α × List (List α))
  | buf, [] => (endOf pat buf).map fun n => (n, buf, [])
  | buf, seg :: segs =>
    match endOf pat buf with
    | some n => some (n, buf, seg :: segs)
    | none => readUntil pat (buf ++ seg) segs

/-- The delimiter that is found is the first one of the stream. -/
theorem readUntil_of_endOf {buf : List α} (h : endOf pat (buf ++ segs.flatten) = some n) :
    ∃ buf' segs', readUntil pat buf segs = some (n, buf', segs') ∧
      buf' ++ segs'.flatten = buf ++ segs.flatten ∧ n ≤ buf'.length := by
  induction segs generalizing buf with
  | nil =>
    rw [List.flatten_nil, List.append_nil] at h
    refine ⟨buf, [], ?_, rfl, (endOf_bounds h).2⟩
    rw [readUntil, h, Option.map_some]
  | cons seg segs ih =>
    rw [readUntil]
    cases hfound : endOf pat buf with
    | some m =>
      rw [endOf_append hfound, Option.some.injEq] at h
      subst h
      exact ⟨buf, seg :: segs, rfl, rfl, (endOf_bounds hfound).2⟩
    | none =>
      rw [List.flatten_cons, ← List.append_assoc] at h ⊢
      exact ih h

/-- A stream without the delimiter is waited for. -/
theorem readUntil_eq_none {buf : List α} (h : endOf pat (buf ++ segs.flatten) = none) :
    readUntil pat buf segs = none := by
  induction segs generalizing buf with
  | nil =>
    rw [List.flatten_nil, List.append_nil] at h
    rw [readUntil, h, Option.map_none]
  | cons seg segs ih =>
    rw [readUntil]
    cases hfound : endOf pat buf with
    | some n =>
      rw [endOf_append hfound] at h
      cases h
    | none =>
      rw [List.flatten_cons, ← List.append_assoc] at h
      exact ih h

end Delimiter

end SegmentedStream

end Yalantinglibs
