import Yalantinglibs.Data.PrefixReader

/-!
# Scanning by blocks

A search that looks at whole blocks of a text at once, as vector instructions do, stops at the first
element it searches for, or at the end of the last whole block. A reader of the elements up to one
that ends them may start with such a search, as long as all that ends them or is wrong among them is
searched for.

## Main definitions

* `blockScan` — how many elements are passed over, and whether one was found behind them
* `Reader.takeUntilFast` — the elements before one that ends them, after a search

## Main results

* `blockScan_found`, `blockScan_notFound` — where the search stops
* `Reader.takeUntilFast_eq` — the reader is the one that looks at every element
-/

set_option autoImplicit false

namespace Yalantinglibs

section Blocks

variable {σ : Type} (width : ℕ) (p : σ → Bool)

/-- The search in a number of blocks. -/
def scanBlocks : ℕ → List σ → ℕ × Bool
  | 0, _ => (0, false)
  | blocks + 1, buf =>
    match (buf.take width).findIdx? p with
    | some i => (i, true)
    | none =>
      let (n, found) := scanBlocks blocks (buf.drop width)
      (width + n, found)

/-- The search in all blocks of a text that are whole. -/
def blockScan (buf : List σ) : ℕ × Bool := scanBlocks width p (buf.length / width) buf

variable {width p} {buf : List σ}

/-- What is passed over is not searched for. -/
theorem scanBlocks_take {blocks : ℕ} :
    ∀ a ∈ buf.take (scanBlocks width p blocks buf).1, p a = false := by
  induction blocks generalizing buf with
  | zero =>
    intro a ha
    rw [scanBlocks, List.take_zero] at ha
    cases ha
  | succ blocks ih =>
    rw [scanBlocks]
    cases hfind : (buf.take width).findIdx? p with
    | some i =>
      obtain ⟨hlt, -, hbefore⟩ := List.findIdx?_eq_some_iff_getElem.mp hfind
      intro a ha
      dsimp only at ha
      obtain ⟨j, hj, rfl⟩ := List.getElem_of_mem ha
      have hji : j < i := by
        rw [List.length_take] at hj
        omega
      have hnot := hbefore j hji
      rw [List.getElem_take] at hnot ⊢
      simpa using hnot
    | none =>
      have hblock := List.findIdx?_eq_none_iff.mp hfind
      intro a ha
      dsimp only at ha
      rw [List.take_add] at ha
      obtain ha | ha := List.mem_append.mp ha
      · exact hblock a ha
      · exact ih a ha

/-- Where something is found, it stands behind what is passed over. -/
theorem scanBlocks_found {blocks : ℕ} (hlen : width * blocks ≤ buf.length)
    (hfound : (scanBlocks width p blocks buf).2 = true) :
    (scanBlocks width p blocks buf).1 < width * blocks ∧
      ∃ a rest, buf.drop (scanBlocks width p blocks buf).1 = a :: rest ∧ p a = true := by
  induction blocks generalizing buf with
  | zero => cases hfound
  | succ blocks ih =>
    rw [Nat.mul_succ] at hlen ⊢
    rw [scanBlocks] at hfound ⊢
    cases hfind : (buf.take width).findIdx? p with
    | some i =>
      obtain ⟨hlt, hi, -⟩ := List.findIdx?_eq_some_iff_getElem.mp hfind
      rw [List.length_take] at hlt
      rw [List.getElem_take] at hi
      dsimp only
      exact ⟨by omega, buf[i], buf.drop (i + 1), List.drop_eq_getElem_cons (by omega), hi⟩
    | none =>
      rw [hfind] at hfound
      obtain ⟨hlt, a, rest, hdrop, ha⟩ := ih (by rw [List.length_drop]; omega) hfound
      dsimp only
      rw [List.drop_drop] at hdrop
      exact ⟨by omega, a, rest, hdrop, ha⟩

theorem scanBlocks_notFound {blocks : ℕ} (h : (scanBlocks width p blocks buf).2 = false) :
    (scanBlocks width p blocks buf).1 = width * blocks := by
  induction blocks generalizing buf with
  | zero => rfl
  | succ blocks ih =>
    rw [scanBlocks] at h ⊢
    cases hfind : (buf.take width).findIdx? p with
    | some i =>
      rw [hfind] at h
      cases h
    | none =>
      rw [hfind] at h
      dsimp only
      rw [ih h, Nat.mul_succ, Nat.add_comm]

theorem blockScan_take : ∀ a ∈ buf.take (blockScan width p buf).1, p a = false := scanBlocks_take

theorem blockScan_found (h : (blockScan width p buf).2 = true) :
    (blockScan width p buf).1 < width * (buf.length / width) ∧
      ∃ a rest, buf.drop (blockScan width p buf).1 = a :: rest ∧ p a = true :=
  scanBlocks_found (Nat.mul_div_le _ _) h

theorem blockScan_notFound (h : (blockScan width p buf).2 = false) :
    (blockScan width p buf).1 = width * (buf.length / width) :=
  scanBlocks_notFound h

end Blocks

namespace Reader

variable {ε σ : Type} (width : ℕ) (p : σ → Bool) (ended failed : ε) (ends fails : σ → Bool)

/-- The elements before the first one that ends them, after a search by blocks. -/
def takeUntilFast : Reader ε σ (List σ) := fun buf =>
  let n := (blockScan width p buf).1
  match takeUntil ended failed ends fails (buf.drop n) with
  | .error e => .error e
  | .ok (taken, rest) => .ok (buf.take n ++ taken, rest)

variable {width p ended failed ends fails}

/-- What is taken stands in front of an element that ends it. -/
theorem exists_eq_append_of_takeUntil {buf taken rest : List σ}
    (h : takeUntil ended failed ends fails buf = .ok (taken, rest)) :
    buf = taken ++ rest ∧ ∃ a tail, rest = a :: tail ∧ ends a = true := by
  induction buf generalizing taken with
  | nil => cases h
  | cons a buf ih =>
    rw [takeUntil] at h
    split_ifs at h with hends hfails
    · cases h
      exact ⟨rfl, a, buf, rfl, hends⟩
    · cases hread : takeUntil ended failed ends fails buf with
      | error e =>
        rw [hread] at h
        cases h
      | ok read =>
        rw [hread] at h
        cases h
        obtain ⟨hbuf, htail⟩ := ih hread
        exact ⟨by rw [List.cons_append, ← hbuf], htail⟩

/-- Elements that neither end nor are wrong are taken. -/
theorem takeUntil_append_left {pre : List σ} (h : ∀ a ∈ pre, ends a = false ∧ fails a = false)
    (rest : List σ) : takeUntil ended failed ends fails (pre ++ rest) =
      match takeUntil ended failed ends fails rest with
      | .error e => .error e
      | .ok (taken, rest) => .ok (pre ++ taken, rest) := by
  induction pre with
  | nil =>
    rw [List.nil_append]
    cases takeUntil ended failed ends fails rest <;> rfl
  | cons a pre ih =>
    obtain ⟨hends, hfails⟩ := h a List.mem_cons_self
    rw [List.cons_append, takeUntil, if_neg (by simp [hends]), if_neg (by simp [hfails]),
      ih fun b hb => h b (List.mem_cons_of_mem a hb)]
    cases takeUntil ended failed ends fails rest <;> rfl

theorem takeUntilFast_eq (h : ∀ a, ends a = true ∨ fails a = true → p a = true) :
    takeUntilFast width p ended failed ends fails = takeUntil ended failed ends fails := by
  funext buf
  have hskip : ∀ a ∈ buf.take (blockScan width p buf).1, ends a = false ∧ fails a = false := by
    intro a ha
    have hnot := blockScan_take a ha
    constructor
    · apply Bool.eq_false_iff.mpr
      intro hends
      rw [h a (.inl hends)] at hnot
      cases hnot
    · apply Bool.eq_false_iff.mpr
      intro hfails
      rw [h a (.inr hfails)] at hnot
      cases hnot
  have hplain : takeUntil ended failed ends fails
      (buf.take (blockScan width p buf).1 ++ buf.drop (blockScan width p buf).1) = _ :=
    takeUntil_append_left hskip _
  rw [List.take_append_drop] at hplain
  exact hplain.symm

end Reader

end Yalantinglibs
