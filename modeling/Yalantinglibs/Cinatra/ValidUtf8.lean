import Yalantinglibs.Data.ByteSearch
import Yalantinglibs.Data.StepLoop
import Mathlib.Data.List.Forall2

/-!
# Well-formed UTF-8

`is_valid_utf8` of `cinatra/utils.hpp`, which the payload of a close frame has to pass. The loop
takes four characters of ASCII at once where it finds them, and else goes on to the next lead byte
and checks one sequence.

## Main definitions

* `utf8Table`, `WellFormedUtf8` — Table 3-7 of the Unicode standard
* `isValidUtf8Body` — a round of the loop; a read at or behind the end is an error

## Main results

* `isValidUtf8_ends_iff` — the loop ends, with the right answer and without such a read
-/

set_option autoImplicit false

namespace Yalantinglibs.Cinatra

open ByteCodec ByteSearch StepLoop

/-! ### The standard -/

/-- Table 3-7: the well-formed byte sequences, by the ranges of their bytes. -/
def utf8Table : List (List (UInt8 × UInt8)) :=
  [[(0x00, 0x7F)],
   [(0xC2, 0xDF), (0x80, 0xBF)],
   [(0xE0, 0xE0), (0xA0, 0xBF), (0x80, 0xBF)],
   [(0xE1, 0xEC), (0x80, 0xBF), (0x80, 0xBF)],
   [(0xED, 0xED), (0x80, 0x9F), (0x80, 0xBF)],
   [(0xEE, 0xEF), (0x80, 0xBF), (0x80, 0xBF)],
   [(0xF0, 0xF0), (0x90, 0xBF), (0x80, 0xBF), (0x80, 0xBF)],
   [(0xF1, 0xF3), (0x80, 0xBF), (0x80, 0xBF), (0x80, 0xBF)],
   [(0xF4, 0xF4), (0x80, 0x8F), (0x80, 0xBF), (0x80, 0xBF)]]

/-- The bytes are one sequence of the table. -/
def IsUtf8Sequence (q : Bytes) : Prop :=
  ∃ row ∈ utf8Table, List.Forall₂ (fun r b => r.1 ≤ b ∧ b ≤ r.2) row q

/-- The bytes are such sequences, one after the other. -/
inductive WellFormedUtf8 : Bytes → Prop
  | nil : WellFormedUtf8 []
  | append {q rest : Bytes} (hq : IsUtf8Sequence q) (hrest : WellFormedUtf8 rest) :
      WellFormedUtf8 (q ++ rest)

/-! ### The loop -/

/-- A read at or behind the end of the text. -/
inductive ReadPastEnd
  | readPastEnd
  deriving DecidableEq

/-- `s[k]`. -/
def byteAt (s : Bytes) (k : ℕ) : Except ReadPastEnd UInt8 :=
  match s[k]? with
  | some b => .ok b
  | none => .error .readPastEnd

/-- The inner loop, up to a byte that is not ASCII; there may be none. -/
def skipAscii : Bytes → Except ReadPastEnd (Option Bytes)
  | [] => .error .readPastEnd
  | b :: s =>
    if b &&& 0x80 = 0 then
      if s = [] then .ok none else skipAscii s
    else .ok (some (b :: s))

/-- The length of the sequence at a lead byte, unless it is ill-formed. -/
def sequenceLength (s : Bytes) : Except ReadPastEnd (Option ℕ) :=
  (byteAt s 0).bind fun b₀ =>
    if b₀ &&& 0x60 = 0x40 then
      if s.length ≤ 1 then .ok none
      else (byteAt s 1).bind fun b₁ =>
        .ok (if b₁ &&& 0xC0 ≠ 0x80 ∨ b₀ &&& 0xFE = 0xC0 then none else some 2)
    else if b₀ &&& 0xF0 = 0xE0 then
      if s.length ≤ 2 then .ok none
      else (byteAt s 1).bind fun b₁ => (byteAt s 2).bind fun b₂ =>
        .ok (if b₁ &&& 0xC0 ≠ 0x80 ∨ b₂ &&& 0xC0 ≠ 0x80 ∨ b₀ = 0xE0 ∧ b₁ &&& 0xE0 = 0x80 ∨
            b₀ = 0xED ∧ b₁ &&& 0xE0 = 0xA0 then none
          else some 3)
    else if b₀ &&& 0xF8 = 0xF0 then
      if s.length ≤ 3 then .ok none
      else (byteAt s 1).bind fun b₁ => (byteAt s 2).bind fun b₂ => (byteAt s 3).bind fun b₃ =>
        .ok (if b₁ &&& 0xC0 ≠ 0x80 ∨ b₂ &&& 0xC0 ≠ 0x80 ∨ b₃ &&& 0xC0 ≠ 0x80 ∨
            b₀ = 0xF0 ∧ b₁ &&& 0xF0 = 0x80 ∨ b₀ = 0xF4 ∧ b₁ > 0x8F ∨ b₀ > 0xF4 then none
          else some 4)
    else .ok none

/-- A round of the loop of `is_valid_utf8`, on what is left of the text. -/
def isValidUtf8Body (s : Bytes) : Bytes ⊕ Except ReadPastEnd Bool :=
  if s = [] then .inr (.ok true)
  else if 4 ≤ s.length ∧ ofLE (s.take 4) &&& 0x80808080 = 0 then .inl (s.drop 4)
  else
    match skipAscii s with
    | .error e => .inr (.error e)
    | .ok none => .inr (.ok true)
    | .ok (some s) =>
      match sequenceLength s with
      | .error e => .inr (.error e)
      | .ok none => .inr (.ok false)
      | .ok (some n) => .inl (s.drop n)

/-! ### Bits and ranges -/

section Bits

variable {b : UInt8}

/-- The bits that are looked at, as ranges. -/
theorem bits_iff (b : UInt8) :
    (b &&& 0x80 = 0 ↔ b.toNat < 0x80) ∧ (b &&& 0x60 = 0x40 ↔ b.toNat / 32 % 4 = 2) ∧
    (b &&& 0xF0 = 0xE0 ↔ b.toNat / 16 = 14) ∧ (b &&& 0xF8 = 0xF0 ↔ b.toNat / 8 = 30) ∧
    (b &&& 0xC0 = 0x80 ↔ b.toNat / 64 = 2) ∧ (b &&& 0xFE = 0xC0 ↔ b.toNat / 2 = 96) ∧
    (b &&& 0xE0 = 0x80 ↔ b.toNat / 32 = 4) ∧ (b &&& 0xE0 = 0xA0 ↔ b.toNat / 32 = 5) ∧
    (b &&& 0xF0 = 0x80 ↔ b.toNat / 16 = 8) := by
  have key : ∀ n < 256, let b := UInt8.ofNat n
      (b &&& 0x80 = 0 ↔ n < 0x80) ∧ (b &&& 0x60 = 0x40 ↔ n / 32 % 4 = 2) ∧
      (b &&& 0xF0 = 0xE0 ↔ n / 16 = 14) ∧ (b &&& 0xF8 = 0xF0 ↔ n / 8 = 30) ∧
      (b &&& 0xC0 = 0x80 ↔ n / 64 = 2) ∧ (b &&& 0xFE = 0xC0 ↔ n / 2 = 96) ∧
      (b &&& 0xE0 = 0x80 ↔ n / 32 = 4) ∧ (b &&& 0xE0 = 0xA0 ↔ n / 32 = 5) ∧
      (b &&& 0xF0 = 0x80 ↔ n / 16 = 8) := by decide +kernel
  have hb := key b.toNat b.toNat_lt
  rwa [UInt8.ofNat_toNat] at hb

theorem and_word (a b c d : UInt8) :
    ofLE [a, b, c, d] &&& 0x80808080 = 0 ↔
      a.toNat < 0x80 ∧ b.toNat < 0x80 ∧ c.toNat < 0x80 ∧ d.toNat < 0x80 := by
  have hmask : ∀ n < 256, n &&& 0x80 = 0 ↔ n < 0x80 := by decide +kernel
  have hword : ofLE [a, b, c, d] &&& 0x80808080 =
      (a.toNat &&& 0x80) + 256 * ((b.toNat &&& 0x80) + 256 * ((c.toNat &&& 0x80) +
        256 * (d.toNat &&& 0x80))) := by
    have hd : d.toNat + 256 * 0 = d.toNat := Nat.add_zero _
    rw [ofLE, ofLE, ofLE, ofLE, ofLE, hd, show 0x80808080 = 0x80 + 256 * (0x80 + 256 * (0x80 +
      256 * 0x80)) from rfl, and_add a.toNat_lt (by decide), and_add b.toNat_lt (by decide),
      and_add c.toNat_lt (by decide)]
  rw [hword, ← hmask _ a.toNat_lt, ← hmask _ b.toNat_lt, ← hmask _ c.toNat_lt,
    ← hmask _ d.toNat_lt]
  omega

end Bits

/-! ### Sequences -/

section Sequences

variable {a b c d : UInt8} {t : Bytes}

theorem isUtf8Sequence_one_iff : IsUtf8Sequence [a] ↔ a.toNat < 0x80 := by
  simp [IsUtf8Sequence, utf8Table, UInt8.le_iff_toNat_le]
  omega

theorem isUtf8Sequence_two_iff :
    IsUtf8Sequence [a, b] ↔ 0xC2 ≤ a.toNat ∧ a.toNat ≤ 0xDF ∧ b.toNat / 64 = 2 := by
  simp [IsUtf8Sequence, utf8Table, UInt8.le_iff_toNat_le]
  omega

theorem isUtf8Sequence_three_iff :
    IsUtf8Sequence [a, b, c] ↔ a.toNat / 16 = 14 ∧ b.toNat / 64 = 2 ∧ c.toNat / 64 = 2 ∧
      ¬ (a.toNat = 0xE0 ∧ b.toNat / 32 = 4) ∧ ¬ (a.toNat = 0xED ∧ b.toNat / 32 = 5) := by
  simp [IsUtf8Sequence, utf8Table, UInt8.le_iff_toNat_le]
  omega

theorem isUtf8Sequence_four_iff :
    IsUtf8Sequence [a, b, c, d] ↔ a.toNat / 8 = 30 ∧ b.toNat / 64 = 2 ∧ c.toNat / 64 = 2 ∧
      d.toNat / 64 = 2 ∧ ¬ (a.toNat = 0xF0 ∧ b.toNat / 16 = 8) ∧
      ¬ (a.toNat = 0xF4 ∧ 0x8F < b.toNat) ∧ a.toNat ≤ 0xF4 := by
  simp [IsUtf8Sequence, utf8Table, UInt8.le_iff_toNat_le]
  omega

/-- The lead byte tells how long a sequence is. -/
theorem length_of_isUtf8Sequence (h : IsUtf8Sequence (a :: t)) :
    (a :: t).length = if a.toNat < 0x80 then 1 else if a.toNat / 32 % 4 = 2 then 2
      else if a.toNat / 16 = 14 then 3 else 4 := by
  obtain ⟨row, hrow, h⟩ := h
  have hlength := h.length_eq
  have hhead : ∀ r ∈ row.head?, r.1.toNat ≤ a.toNat ∧ a.toNat ≤ r.2.toNat := by
    cases h with
    | cons hr _ =>
      rintro r ⟨⟩
      exact hr
  simp only [utf8Table, List.mem_cons, List.not_mem_nil, or_false] at hrow
  rcases hrow with rfl | rfl | rfl | rfl | rfl | rfl | rfl | rfl | rfl
  all_goals
    have hrange := hhead _ rfl
    simp at hrange
    rw [← hlength]
    split_ifs <;> first | rfl | omega

/-- At a lead byte the check tells the length of the sequence, if there is one, and reads no
further. -/
theorem exists_sequenceLength (ha : 0x80 ≤ a.toNat) (t : Bytes) :
    ∃ r, sequenceLength (a :: t) = .ok r ∧
      ∀ n, r = some n ↔ n ≤ (a :: t).length ∧ IsUtf8Sequence ((a :: t).take n) := by
  have ha' : a.toNat < 256 := a.toNat_lt
  obtain ⟨-, h₂, h₃, h₄, -, hover, -⟩ := bits_iff a
  -- sequences of another length there are none
  have hlength : ∀ n, n ≤ (a :: t).length → IsUtf8Sequence ((a :: t).take n) →
      n = if a.toNat / 32 % 4 = 2 then 2 else if a.toNat / 16 = 14 then 3 else 4 := by
    intro n hn h
    cases n with
    | zero =>
      obtain ⟨row, hrow, hnil⟩ := h
      cases hnil
      exact absurd hrow (by decide)
    | succ n =>
      have hlen := length_of_isUtf8Sequence h
      rw [List.length_cons, List.length_take, if_neg (Nat.not_lt.mpr ha)] at hlen
      rw [List.length_cons] at hn
      omega
  have hnone {len : ℕ} (hclass : (if a.toNat / 32 % 4 = 2 then 2 else
        if a.toNat / 16 = 14 then 3 else 4) = len)
      (hno : len ≤ (a :: t).length → ¬ IsUtf8Sequence ((a :: t).take len)) (n : ℕ) :
      none = some n ↔ n ≤ (a :: t).length ∧ IsUtf8Sequence ((a :: t).take n) := by
    refine iff_of_false nofun ?_
    rintro ⟨hn, h⟩
    obtain rfl := (hlength n hn h).trans hclass
    exact hno hn h
  have hsome {len : ℕ} (hclass : (if a.toNat / 32 % 4 = 2 then 2 else
        if a.toNat / 16 = 14 then 3 else 4) = len) (hlen : len ≤ (a :: t).length)
      (hseq : IsUtf8Sequence ((a :: t).take len)) (n : ℕ) :
      some len = some n ↔ n ≤ (a :: t).length ∧ IsUtf8Sequence ((a :: t).take n) := by
    constructor
    · rintro ⟨⟩
      exact ⟨hlen, hseq⟩
    · rintro ⟨hn, h⟩
      rw [hlength n hn h, hclass]
  rw [sequenceLength]
  show ∃ r, (if a &&& 0x60 = 0x40 then _ else _) = Except.ok r ∧ _
  by_cases hlead₂ : a.toNat / 32 % 4 = 2
  · have hclass : (if a.toNat / 32 % 4 = 2 then 2 else if a.toNat / 16 = 14 then 3 else 4) = 2 :=
      if_pos hlead₂
    rw [if_pos (h₂.mpr hlead₂)]
    cases t with
    | nil => exact ⟨none, rfl, hnone hclass fun h => absurd h (by simp)⟩
    | cons b t =>
      obtain ⟨-, -, -, -, hb, -⟩ := bits_iff b
      refine ⟨_, rfl, ?_⟩
      have hiff : IsUtf8Sequence ((a :: b :: t).take 2) ↔
          ¬ (b &&& 0xC0 ≠ 0x80 ∨ a &&& 0xFE = 0xC0) := by
        rw [List.take_succ_cons, List.take_succ_cons, List.take_zero, isUtf8Sequence_two_iff, Ne,
          hb, hover]
        omega
      split
      · rename_i hbad
        exact hnone hclass fun _ h => hiff.mp h hbad
      · rename_i hgood
        exact hsome hclass (by simp) (hiff.mpr hgood)
  rw [if_neg (mt h₂.mp hlead₂)]
  by_cases hlead₃ : a.toNat / 16 = 14
  · have hclass : (if a.toNat / 32 % 4 = 2 then 2 else if a.toNat / 16 = 14 then 3 else 4) = 3 := by
      rw [if_neg hlead₂, if_pos hlead₃]
    rw [if_pos (h₃.mpr hlead₃)]
    match t with
    | [] => exact ⟨none, rfl, hnone hclass fun h => absurd h (by simp)⟩
    | [b] => exact ⟨none, rfl, hnone hclass fun h => absurd h (by simp)⟩
    | b :: c :: t =>
      obtain ⟨-, -, -, -, hb, -, hb₄, hb₅, -⟩ := bits_iff b
      obtain ⟨-, -, -, -, hc, -⟩ := bits_iff c
      refine ⟨_, rfl, ?_⟩
      have hiff : IsUtf8Sequence ((a :: b :: c :: t).take 3) ↔
          ¬ (b &&& 0xC0 ≠ 0x80 ∨ c &&& 0xC0 ≠ 0x80 ∨ a = 0xE0 ∧ b &&& 0xE0 = 0x80 ∨
            a = 0xED ∧ b &&& 0xE0 = 0xA0) := by
        rw [List.take_succ_cons, List.take_succ_cons, List.take_succ_cons, List.take_zero,
          isUtf8Sequence_three_iff, Ne, Ne, hb, hc, hb₄, hb₅, ← UInt8.toNat_inj,
          ← UInt8.toNat_inj]
        simp
        omega
      split
      · rename_i hbad
        exact hnone hclass fun _ h => hiff.mp h hbad
      · rename_i hgood
        exact hsome hclass (by simp) (hiff.mpr hgood)
  rw [if_neg (mt h₃.mp hlead₃)]
  have hclass : (if a.toNat / 32 % 4 = 2 then 2 else if a.toNat / 16 = 14 then 3 else 4) = 4 := by
    rw [if_neg hlead₂, if_neg hlead₃]
  by_cases hlead₄ : a.toNat / 8 = 30
  · rw [if_pos (h₄.mpr hlead₄)]
    match t with
    | [] => exact ⟨none, rfl, hnone hclass fun h => absurd h (by simp)⟩
    | [b] => exact ⟨none, rfl, hnone hclass fun h => absurd h (by simp)⟩
    | [b, c] => exact ⟨none, rfl, hnone hclass fun h => absurd h (by simp)⟩
    | b :: c :: d :: t =>
      obtain ⟨-, -, -, -, hb, -, -, -, hb₈⟩ := bits_iff b
      obtain ⟨-, -, -, -, hc, -⟩ := bits_iff c
      obtain ⟨-, -, -, -, hd, -⟩ := bits_iff d
      refine ⟨_, rfl, ?_⟩
      have hiff : IsUtf8Sequence ((a :: b :: c :: d :: t).take 4) ↔
          ¬ (b &&& 0xC0 ≠ 0x80 ∨ c &&& 0xC0 ≠ 0x80 ∨ d &&& 0xC0 ≠ 0x80 ∨
            a = 0xF0 ∧ b &&& 0xF0 = 0x80 ∨ a = 0xF4 ∧ b > 0x8F ∨ a > 0xF4) := by
        rw [List.take_succ_cons, List.take_succ_cons, List.take_succ_cons, List.take_succ_cons,
          List.take_zero, isUtf8Sequence_four_iff, Ne, Ne, Ne, hb, hc, hd, hb₈,
          ← UInt8.toNat_inj, ← UInt8.toNat_inj, gt_iff_lt, gt_iff_lt, UInt8.lt_iff_toNat_lt,
          UInt8.lt_iff_toNat_lt]
        simp
        omega
      split
      · rename_i hbad
        exact hnone hclass fun _ h => hiff.mp h hbad
      · rename_i hgood
        exact hsome hclass (by simp) (hiff.mpr hgood)
  · rw [if_neg (mt h₄.mp hlead₄)]
    refine ⟨none, rfl, hnone hclass fun hlen h => hlead₄ ?_⟩
    match t with
    | [] => simp at hlen
    | [b] => simp at hlen
    | [b, c] => simp at hlen
    | b :: c :: d :: t => exact (isUtf8Sequence_four_iff.mp h).1

end Sequences

/-! ### The whole text -/

section Text

variable {a : UInt8} {s t q : Bytes} {n : ℕ}

theorem wellFormedUtf8_iff_exists (hs : s ≠ []) :
    WellFormedUtf8 s ↔ ∃ n ≤ s.length, IsUtf8Sequence (s.take n) ∧ WellFormedUtf8 (s.drop n) := by
  constructor
  · intro h
    cases h with
    | nil => exact absurd rfl hs
    | @append q rest hq hrest =>
      refine ⟨q.length, by simp, ?_, ?_⟩
      · rwa [List.take_left]
      · rwa [List.drop_left]
  · rintro ⟨n, -, hseq, hrest⟩
    rw [← List.take_append_drop n s]
    exact .append hseq hrest

theorem not_isUtf8Sequence_nil : ¬ IsUtf8Sequence [] := by
  rintro ⟨row, hrow, hnil⟩
  cases hnil
  exact absurd hrow (by decide)

/-- A character of ASCII in front does not matter. -/
theorem wellFormedUtf8_ascii_cons_iff (ha : a.toNat < 0x80) :
    WellFormedUtf8 (a :: t) ↔ WellFormedUtf8 t := by
  rw [wellFormedUtf8_iff_exists (List.cons_ne_nil a t)]
  constructor
  · rintro ⟨n, hn, hseq, hrest⟩
    cases n with
    | zero => exact absurd hseq not_isUtf8Sequence_nil
    | succ n =>
      have hlength := length_of_isUtf8Sequence hseq
      rw [if_pos ha, List.length_cons, List.length_take] at hlength
      rw [List.length_cons] at hn
      obtain rfl : n = 0 := by omega
      exact hrest
  · intro h
    exact ⟨1, by simp, isUtf8Sequence_one_iff.mpr ha, h⟩

/-- The inner loop passes over ASCII. -/
theorem exists_skipAscii (hs : s ≠ []) :
    (skipAscii s = .ok none ∧ WellFormedUtf8 s) ∨
      ∃ a t, skipAscii s = .ok (some (a :: t)) ∧ 0x80 ≤ a.toNat ∧ (a :: t).length ≤ s.length ∧
        (WellFormedUtf8 (a :: t) ↔ WellFormedUtf8 s) := by
  induction s with
  | nil => exact absurd rfl hs
  | cons b s ih =>
    have hb := (bits_iff b).1
    rw [skipAscii]
    split
    · rename_i hzero
      have hascii := hb.mp hzero
      by_cases hnil : s = []
      · rw [if_pos hnil, hnil]
        exact .inl ⟨rfl, (wellFormedUtf8_ascii_cons_iff hascii).mpr .nil⟩
      · rw [if_neg hnil, wellFormedUtf8_ascii_cons_iff hascii]
        refine (ih hnil).imp_right ?_
        rintro ⟨a, t, hskip, ha, hlength, hiff⟩
        exact ⟨a, t, hskip, ha, hlength.trans (Nat.le_succ _), hiff⟩
    · rename_i hzero
      have hlead : 0x80 ≤ b.toNat := Nat.not_lt.mp fun h => hzero (hb.mpr h)
      exact .inr ⟨b, s, rfl, hlead, le_rfl, Iff.rfl⟩

/-- Four characters of ASCII in front do not matter. -/
theorem wellFormedUtf8_drop_iff (hlength : 4 ≤ s.length)
    (hword : ofLE (s.take 4) &&& 0x80808080 = 0) :
    WellFormedUtf8 (s.drop 4) ↔ WellFormedUtf8 s := by
  match s with
  | a :: b :: c :: d :: t =>
    obtain ⟨ha, hb, hc, hd⟩ := (and_word a b c d).mp hword
    rw [wellFormedUtf8_ascii_cons_iff ha, wellFormedUtf8_ascii_cons_iff hb,
      wellFormedUtf8_ascii_cons_iff hc, wellFormedUtf8_ascii_cons_iff hd]
    rfl

/-- A round goes on with a shorter text that is well-formed if the text is, or it knows. -/
theorem isValidUtf8Body_spec (s : Bytes) :
    (∃ s', isValidUtf8Body s = .inl s' ∧ s'.length < s.length ∧
      (WellFormedUtf8 s' ↔ WellFormedUtf8 s)) ∨
    ∃ b, isValidUtf8Body s = .inr (.ok b) ∧ (b = true ↔ WellFormedUtf8 s) := by
  rw [isValidUtf8Body]
  by_cases hs : s = []
  · rw [if_pos hs, hs]
    exact .inr ⟨true, rfl, iff_of_true rfl .nil⟩
  rw [if_neg hs]
  by_cases hword : 4 ≤ s.length ∧ ofLE (s.take 4) &&& 0x80808080 = 0
  · rw [if_pos hword]
    refine .inl ⟨_, rfl, ?_, wellFormedUtf8_drop_iff hword.1 hword.2⟩
    rw [List.length_drop]
    omega
  rw [if_neg hword]
  rcases exists_skipAscii hs with ⟨hskip, hwell⟩ | ⟨a, t, hskip, ha, hlength, hiff⟩
  · rw [hskip]
    exact .inr ⟨true, rfl, iff_of_true rfl hwell⟩
  obtain ⟨r, hr, hspec⟩ := exists_sequenceLength ha t
  rw [hskip]
  dsimp only
  rw [hr]
  have hwell := wellFormedUtf8_iff_exists (List.cons_ne_nil a t)
  cases r with
  | none =>
    refine .inr ⟨false, rfl, iff_of_false Bool.false_ne_true ?_⟩
    rw [← hiff, hwell]
    rintro ⟨n, hn, hseq, -⟩
    cases (hspec n).mpr ⟨hn, hseq⟩
  | some n =>
    obtain ⟨hn, hseq⟩ := (hspec n).mp rfl
    have hpos : n ≠ 0 := by
      rintro rfl
      exact not_isUtf8Sequence_nil hseq
    refine .inl ⟨_, rfl, ?_, ?_⟩
    · rw [List.length_drop]
      omega
    · rw [← hiff, hwell]
      constructor
      · intro h
        exact ⟨n, hn, hseq, h⟩
      · rintro ⟨m, hm, hmseq, h⟩
        cases (hspec m).mpr ⟨hm, hmseq⟩
        exact h

/-- The loop ends, without a read at or behind the end, and tells whether the text is
well-formed. -/
theorem isValidUtf8_ends_iff (s : Bytes) (r : Except ReadPastEnd Bool) :
    Ends isValidUtf8Body s r ↔ ∃ b, r = .ok b ∧ (b = true ↔ WellFormedUtf8 s) := by
  obtain ⟨r', hends, b', rfl, hb'⟩ : ∃ r', Ends isValidUtf8Body s r' ∧
      ∃ b, r' = .ok b ∧ (b = true ↔ WellFormedUtf8 s) := by
    apply ends_of_measure (fun s' => WellFormedUtf8 s' ↔ WellFormedUtf8 s) List.length
    · intro s₁ s₂ hs₁ hbody
      rcases isValidUtf8Body_spec s₁ with ⟨s', hbody', hlength, hiff⟩ | ⟨b, hbody', -⟩
      · cases hbody.symm.trans hbody'
        exact ⟨hiff.trans hs₁, hlength⟩
      · cases hbody.symm.trans hbody'
    · intro s₁ r hs₁ hbody
      rcases isValidUtf8Body_spec s₁ with ⟨s', hbody', -⟩ | ⟨b, hbody', hb⟩
      · cases hbody.symm.trans hbody'
      · cases hbody.symm.trans hbody'
        exact ⟨b, rfl, hb.trans hs₁⟩
    · exact Iff.rfl
  constructor
  · intro h
    exact ⟨b', h.unique hends, hb'⟩
  · rintro ⟨b, rfl, hb⟩
    rwa [Bool.eq_iff_iff.mpr (hb.trans hb'.symm)]

end Text

end Yalantinglibs.Cinatra
