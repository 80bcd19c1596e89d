import Mathlib.Data.List.DropRight
import Yalantinglibs.Cinatra.HttpParser

/-!
# Ranges of a file

`parse_ranges` of `coro_http_request.hpp`: the value of a `Range` field, behind the equals sign, and
the size of the file. The bounds are `int`s, and a start that is missing is `-1` until the end of
the range is known.

The specification has the positions of a file as numbers, and three forms of a range: from one
position to another, from a position on, and the last bytes.

## Main definitions

* `parseRanges` — the pairs that the code finds, `none` where the list is not valid
* `RangeSpec`, `RangeSpec.range` — a range, and the bytes of a file that it stands for
* `Regular` — a piece of the list that the code treats as its form says

## Main results

* `RangeSpec.range_bounds` — what a range stands for lies in the file
* `parseRange_of_regular` — a piece that is regular stands for its range
* `parseRanges_reads` — the whole list
-/

set_option autoImplicit false

namespace Yalantinglibs.Cinatra

/-! ### The code -/

/-- `trim_sv`. -/
def trimSv (v : Bytes) : Bytes := (v.dropWhile (· = 32)).rdropWhile (· = 32)

/-- What is left of a number that is stored in an `int`. -/
def toInt32 (x : ℤ) : ℤ := (x + 2 ^ 31) % 2 ^ 32 - 2 ^ 31

/-- `std::from_chars` for an `int`. What follows the digits is not looked at. -/
def fromCharsInt32 (s : Bytes) : Option ℤ :=
  let digits := (if s.head? = some 45 then s.tail else s).takeWhile isDigit
  let value : ℤ := if s.head? = some 45 then -decimalValue digits else decimalValue digits
  if digits ≠ [] ∧ -2 ^ 31 ≤ value ∧ value < 2 ^ 31 then some value else none

/-- A bound of a range, with what it is where there is no text for it. -/
def readBound (missing : ℤ) (text : Bytes) : Option ℤ :=
  if text = [] then some missing else fromCharsInt32 text

/-- The pair that is stored for two bounds. Whether they are in order is not looked at. -/
def resolveRange (fileSize : ℕ) (start stop : ℤ) : Option (ℤ × ℤ) :=
  if 0 < start ∧ (toInt32 fileSize ≤ start ∨ start = stop) then none
  else
    let stop := if 0 < stop ∧ toInt32 fileSize ≤ stop then toInt32 (fileSize - 1) else stop
    if start = -1 then some (toInt32 (fileSize - stop), toInt32 (fileSize - 1))
    else some (start, stop)

/-- The texts around the signs of a piece. -/
def subRanges (range : Bytes) : List Bytes := (range.splitOn 45).map trimSv

/-- One round of the loop of `parse_ranges`. A piece without a sign ends like one with nothing
behind it, and of more than two texts the others are not looked at. -/
def parseRange (fileSize : ℕ) (texts : List Bytes) : Option (ℤ × ℤ) := do
  let start ← readBound (-1) (texts.headD [])
  let stop ← readBound (toInt32 (fileSize - 1)) (texts.tail.headD [])
  resolveRange fileSize start stop

/-- `parse_ranges`, `none` where it leaves `is_valid` false. -/
def parseRanges (rangeStr : Bytes) (fileSize : ℕ) : Option (List (ℤ × ℤ)) :=
  let text := trimSv rangeStr
  if text = [] then some [(0, toInt32 (fileSize - 1))]
  else if [45, 45] <:+: text then none
  else if text = [45] then some [(0, toInt32 (fileSize - 1))]
  else (text.splitOn 44).mapM fun range => parseRange fileSize (subRanges range)

/-! ### Ranges -/

/-- `first-last`, `first-` and `-length`. -/
inductive RangeSpec
  | fromTo (first last : ℕ)
  | from (first : ℕ)
  | suffix (length : ℕ)
  deriving DecidableEq, Repr

/-- The first and the last byte of a file that a range stands for, where there are any. -/
def RangeSpec.range (size : ℕ) : RangeSpec → Option (ℕ × ℕ)
  | fromTo first last =>
    if first ≤ last ∧ first < size then some (first, min last (size - 1)) else none
  | .from first => if first < size then some (first, size - 1) else none
  | suffix length => if 0 < length ∧ 0 < size then some (size - min length size, size - 1) else none

theorem RangeSpec.range_bounds {size first last : ℕ} {spec : RangeSpec}
    (h : spec.range size = some (first, last)) : first ≤ last ∧ last < size := by
  cases spec <;>
  · simp only [RangeSpec.range, Option.ite_none_right_eq_some, Option.some.injEq,
      Prod.mk.injEq] at h
    omega

/-- A text that is all digits. -/
def IsNumber (text : Bytes) : Prop := text ≠ [] ∧ ∀ c ∈ text, isDigit c = true

instance (text : Bytes) : Decidable (IsNumber text) := inferInstanceAs (Decidable (_ ∧ _))

/-- The range of a piece, blanks around its numbers left out. A number alone is a first position. -/
def RangeSpec.read : List Bytes → Option RangeSpec
  | [first] => if IsNumber first then some (.from (decimalValue first)) else none
  | [first, last] =>
    if IsNumber first then
      if last = [] then some (.from (decimalValue first))
      else if IsNumber last then some (.fromTo (decimalValue first) (decimalValue last))
      else none
    else if first = [] ∧ IsNumber last then some (.suffix (decimalValue last))
    else none
  | _ => none

/-- A text that is no number, which already its first byte tells. -/
def NotNumeric (text : Bytes) : Prop := ∃ c rest, text = c :: rest ∧ isDigit c = false

/-- A range that lies behind the end of the file. -/
def Behind (size : ℕ) : RangeSpec → Prop
  | .fromTo first _ => size ≤ first
  | .from first => size ≤ first
  | .suffix _ => False

/-- A piece that cannot be read or lies behind the end. -/
def Refused (size : ℕ) (texts : List Bytes) : Prop :=
  NotNumeric (texts.headD []) ∨ NotNumeric (texts.tail.headD []) ∨
    ∃ spec, RangeSpec.read texts = some spec ∧ Behind size spec

/-- A range in the file of more than one byte, whose end can be stored in an `int`, or its first
byte alone. The last bytes are fewer than all. -/
def Inside (size : ℕ) : RangeSpec → Prop
  | .fromTo first last => first < size ∧ (first < last ∧ last < 2 ^ 31 ∨ last = 0 ∧ first = 0)
  | .from first => first < size ∧ (first = 0 ∨ first + 1 ≠ size)
  | .suffix length => 0 < length ∧ length < size

/-- A piece that the code treats as its form says. -/
def Regular (size : ℕ) (texts : List Bytes) : Prop :=
  Refused size texts ∨ ∃ spec, RangeSpec.read texts = some spec ∧ Inside size spec

/-- The pair of a piece. -/
def rangeOf (size : ℕ) (texts : List Bytes) : Option (ℤ × ℤ) :=
  (RangeSpec.read texts).bind fun spec => (spec.range size).map fun r => (r.1, r.2)

/-! ### Numbers -/

section Numbers

variable {text : Bytes} {size : ℕ}

theorem toInt32_of_lt (x : ℤ) (h0 : 0 ≤ x) (h : x < 2 ^ 31) : toInt32 x = x := by
  rw [toInt32]
  omega

theorem readBound_number (h : IsNumber text) (missing : ℤ) :
    readBound missing text =
      if decimalValue text < 2 ^ 31 then some (decimalValue text : ℤ) else none := by
  obtain ⟨hne, hdigits⟩ := h
  obtain ⟨c, rest, rfl⟩ := List.exists_cons_of_ne_nil hne
  have hhead : (c :: rest).head? ≠ some 45 := by
    intro h45
    have hc := hdigits c List.mem_cons_self
    rw [List.head?_cons, Option.some.injEq] at h45
    rw [h45] at hc
    cases hc
  rw [readBound, if_neg hne, fromCharsInt32]
  simp only [if_neg hhead, List.takeWhile_eq_self_iff.mpr hdigits]
  have hnat : ((decimalValue (c :: rest) : ℤ) < 2 ^ 31) ↔ decimalValue (c :: rest) < 2 ^ 31 := by
    omega
  by_cases hlt : decimalValue (c :: rest) < 2 ^ 31
  · rw [if_pos ⟨hne, by omega, hnat.mpr hlt⟩, if_pos hlt]
  · rw [if_neg fun h => hlt (hnat.mp h.2.2), if_neg hlt]

theorem readBound_notNumeric (h : NotNumeric text) (hsign : 45 ∉ text) (missing : ℤ) :
    readBound missing text = none := by
  obtain ⟨c, rest, rfl, hc⟩ := h
  have hhead : (c :: rest).head? ≠ some 45 := by
    intro h45
    rw [List.head?_cons, Option.some.injEq] at h45
    exact hsign (h45 ▸ List.mem_cons_self)
  have hdigits : (c :: rest).takeWhile isDigit = [] := by
    rw [List.takeWhile_cons_of_neg (by rw [hc]; decide)]
  rw [readBound, if_neg (List.cons_ne_nil c rest), fromCharsInt32]
  simp only [if_neg hhead, hdigits, ne_eq, not_true_eq_false, false_and, if_false]

theorem readBound_nil (missing : ℤ) : readBound missing [] = some missing := rfl

end Numbers

/-! ### A piece -/

section Piece

variable {size : ℕ} {texts : List Bytes}

/-- The forms of a piece. -/
theorem exists_of_read {spec : RangeSpec} (h : RangeSpec.read texts = some spec) :
    (∃ first, IsNumber first ∧ (texts = [first] ∨ texts = [first, []]) ∧
        spec = .from (decimalValue first)) ∨
      (∃ first last, IsNumber first ∧ IsNumber last ∧ texts = [first, last] ∧
        spec = .fromTo (decimalValue first) (decimalValue last)) ∨
      ∃ last, IsNumber last ∧ texts = [[], last] ∧ spec = .suffix (decimalValue last) := by
  match texts with
  | [] => cases h
  | [first] =>
    rw [RangeSpec.read, Option.ite_none_right_eq_some, Option.some.injEq] at h
    exact .inl ⟨first, h.1, .inl rfl, h.2.symm⟩
  | [first, last] =>
    rw [RangeSpec.read] at h
    split_ifs at h with hfirst hlast hnumber hsuffix
    · cases h
      exact .inl ⟨first, hfirst, .inr (by rw [hlast]), rfl⟩
    · cases h
      exact .inr (.inl ⟨first, last, hfirst, hnumber, rfl, rfl⟩)
    · cases h
      exact .inr (.inr ⟨last, hsuffix.2, by rw [hsuffix.1], rfl⟩)
  | _ :: _ :: _ :: _ => cases h

theorem resolveRange_eq (h0 : 0 < size) (h : size < 2 ^ 31) (start stop : ℤ) :
    resolveRange size start stop =
      if 0 < start ∧ ((size : ℤ) ≤ start ∨ start = stop) then none
      else
        let stop := if 0 < stop ∧ (size : ℤ) ≤ stop then (size : ℤ) - 1 else stop
        if start = -1 then some (toInt32 (size - stop), (size : ℤ) - 1)
        else some (start, stop) := by
  rw [resolveRange, toInt32_of_lt _ (by omega) (by omega), toInt32_of_lt _ (by omega) (by omega)]

theorem parseRange_eq (size : ℕ) (texts : List Bytes) {start stop : ℤ}
    (hstart : readBound (-1) (texts.headD []) = some start)
    (hstop : readBound (toInt32 (size - 1)) (texts.tail.headD []) = some stop) :
    parseRange size texts = resolveRange size start stop := by
  rw [parseRange, hstart, hstop]
  rfl

theorem parseRange_eq_none (h : readBound (-1) (texts.headD []) = none ∨
    readBound (toInt32 (size - 1)) (texts.tail.headD []) = none) :
    parseRange size texts = none := by
  rw [parseRange]
  obtain h | h := h
  · rw [h]
    rfl
  · rw [h]
    cases readBound (-1) (texts.headD []) <;> rfl

/-- The bounds of a range that lies in the file are stored as they are. -/
theorem parseRange_of_inside (h0 : 0 < size) (h : size < 2 ^ 31) {spec : RangeSpec}
    (hread : RangeSpec.read texts = some spec) (hin : Inside size spec) :
    parseRange size texts = rangeOf size texts := by
  have hsize := toInt32_of_lt ((size : ℤ) - 1) (by omega) (by omega)
  rw [rangeOf, hread, Option.bind_some]
  obtain ⟨first, hfirst, htexts, rfl⟩ | ⟨first, last, hfirst, hlast, rfl, rfl⟩ |
    ⟨last, hlast, rfl, rfl⟩ := exists_of_read hread
  · have hstart : readBound (-1) (texts.headD []) = some (decimalValue first : ℤ) := by
      obtain rfl | rfl := htexts <;>
        exact (readBound_number hfirst _).trans (if_pos (by have := hin.1; omega))
    have hstop : readBound (toInt32 (size - 1)) (texts.tail.headD []) = some ((size : ℤ) - 1) := by
      rw [hsize]
      obtain rfl | rfl := htexts <;> rfl
    obtain ⟨hlt, hlast⟩ := hin
    rw [parseRange_eq _ _ hstart hstop, resolveRange_eq h0 h, if_neg (by omega), RangeSpec.range,
      if_pos hlt]
    simp only [Option.map_some]
    rw [if_neg (by omega), if_neg (by omega), Nat.cast_sub (by omega)]
    rfl
  · obtain ⟨hlt, hcases⟩ := hin
    have hstart : readBound (-1) first = some (decimalValue first : ℤ) :=
      (readBound_number hfirst _).trans (if_pos (by omega))
    have hstop : ∀ missing, readBound missing last = some (decimalValue last : ℤ) := by
      intro missing
      exact (readBound_number hlast _).trans (if_pos (by omega))
    have heq := parseRange_eq size [first, last] hstart (hstop _)
    have hrange : (RangeSpec.fromTo (decimalValue first) (decimalValue last)).range size =
        some (decimalValue first, min (decimalValue last) (size - 1)) :=
      if_pos ⟨by omega, hlt⟩
    rw [heq, resolveRange_eq h0 h, if_neg (by omega), hrange]
    simp only [Option.map_some]
    rw [if_neg (by omega)]
    split_ifs with hclip
    · rw [min_eq_right (by omega), Nat.cast_sub (by omega)]
      rfl
    · rw [min_eq_left (by omega)]
  · obtain ⟨hpos, hlt⟩ := hin
    have hstop : ∀ missing, readBound missing last = some (decimalValue last : ℤ) := by
      intro missing
      exact (readBound_number hlast _).trans (if_pos (by omega))
    have heq := parseRange_eq size [[], last] (readBound_nil _) (hstop _)
    have hrange : (RangeSpec.suffix (decimalValue last)).range size =
        some (size - min (decimalValue last) size, size - 1) :=
      if_pos ⟨hpos, h0⟩
    rw [heq, resolveRange_eq h0 h, if_neg (by omega), hrange]
    simp only [Option.map_some]
    rw [if_pos trivial, if_neg (by omega), toInt32_of_lt _ (by omega) (by omega),
      min_eq_left (by omega), Nat.cast_sub (by omega), Nat.cast_sub (by omega)]
    rfl

/-- A start behind the end of the file is refused. -/
theorem resolveRange_behind (h0 : 0 < size) (h : size < 2 ^ 31) {start : ℤ} (hle : size ≤ start)
    (stop : ℤ) : resolveRange size start stop = none := by
  rw [resolveRange_eq h0 h, if_pos ⟨by omega, .inl hle⟩]

/-- A piece that cannot be read, or lies behind the end, makes the list invalid. -/
theorem parseRange_of_refused (h0 : 0 < size) (h : size < 2 ^ 31)
    (hsign : ∀ text ∈ texts, 45 ∉ text) (href : Refused size texts) :
    parseRange size texts = none := by
  have hheadD : ∀ l : List Bytes, (∀ text ∈ l, 45 ∉ text) → 45 ∉ l.headD [] := by
    intro l hl
    cases l with
    | nil => exact List.not_mem_nil
    | cons text l => exact hl text List.mem_cons_self
  obtain hfirst | hlast | ⟨spec, hread, hbehind⟩ := href
  · exact parseRange_eq_none (.inl (readBound_notNumeric hfirst (hheadD _ hsign) _))
  · refine parseRange_eq_none (.inr (readBound_notNumeric hlast (hheadD _ ?_) _))
    exact fun text ht => hsign text (List.mem_of_mem_tail ht)
  · -- the first position may be too large for an `int` already
    have hnumber : ∀ first, IsNumber first → size ≤ decimalValue first → texts.headD [] = first →
        parseRange size texts = none := by
      rintro first hfirst hle rfl
      have hstart := readBound_number hfirst (-1)
      by_cases hlt : decimalValue (texts.headD []) < 2 ^ 31
      · rw [if_pos hlt] at hstart
        cases hstop : readBound (toInt32 (size - 1)) (texts.tail.headD []) with
        | none => exact parseRange_eq_none (.inr hstop)
        | some stop =>
          rw [parseRange_eq _ _ hstart hstop]
          exact resolveRange_behind h0 h (by omega) stop
      · rw [if_neg hlt] at hstart
        exact parseRange_eq_none (.inl hstart)
    obtain ⟨first, hfirst, htexts, rfl⟩ | ⟨first, last, hfirst, hlast, rfl, rfl⟩ |
      ⟨last, hlast, rfl, rfl⟩ := exists_of_read hread
    · apply hnumber first hfirst hbehind
      obtain rfl | rfl := htexts <;> rfl
    · exact hnumber first hfirst hbehind rfl
    · cases hbehind

/-- A piece that is refused stands for nothing in the file. -/
theorem rangeOf_of_refused (href : Refused size texts) : rangeOf size texts = none := by
  rw [rangeOf, Option.bind_eq_none_iff]
  intro spec hread
  rw [Option.map_eq_none_iff]
  have hnot : ∀ {text : Bytes}, IsNumber text → ¬ NotNumeric text := by
    rintro text ⟨-, hdigits⟩ ⟨c, rest, rfl, hc⟩
    rw [hdigits c List.mem_cons_self] at hc
    cases hc
  have hnil : ¬ NotNumeric [] := fun ⟨_, _, heq, _⟩ => by cases heq
  obtain hfirst | hlast | ⟨spec', hread', hbehind⟩ := href
  · obtain ⟨first, hnumber, rfl | rfl, -⟩ | ⟨first, last, hnumber, -, rfl, -⟩ |
      ⟨last, -, rfl, -⟩ := exists_of_read hread
    · exact absurd hfirst (hnot hnumber)
    · exact absurd hfirst (hnot hnumber)
    · exact absurd hfirst (hnot hnumber)
    · exact absurd hfirst hnil
  · obtain ⟨first, -, rfl | rfl, -⟩ | ⟨first, last, -, hnumber, rfl, -⟩ |
      ⟨last, hnumber, rfl, -⟩ := exists_of_read hread
    · exact absurd hlast hnil
    · exact absurd hlast hnil
    · exact absurd hlast (hnot hnumber)
    · exact absurd hlast (hnot hnumber)
  · obtain rfl := Option.some.inj (hread.symm.trans hread')
    cases spec with
    | fromTo first last => exact if_neg fun hin => absurd hin.2 (Nat.not_lt.mpr hbehind)
    | «from» first => exact if_neg (Nat.not_lt.mpr hbehind)
    | suffix length => cases hbehind

theorem parseRange_of_regular (h0 : 0 < size) (h : size < 2 ^ 31)
    (hsign : ∀ text ∈ texts, 45 ∉ text) (hreg : Regular size texts) :
    parseRange size texts = rangeOf size texts := by
  obtain href | ⟨spec, hread, hin⟩ := hreg
  · rw [parseRange_of_refused h0 h hsign href, rangeOf_of_refused href]
  · exact parseRange_of_inside h0 h hread hin

end Piece

/-! ### The list -/

/-- The texts around the signs of each piece of a list. -/
def pieces (text : Bytes) : List (List Bytes) := (text.splitOn 44).map subRanges

theorem mem_trimSv {c : UInt8} {v : Bytes} (h : c ∈ trimSv v) : c ∈ v :=
  (List.dropWhile_suffix _).subset ((List.rdropWhile_prefix _ _).subset h)

/-- A piece of a list has nothing in it that the list was split at. -/
theorem notMem_of_mem_splitOn {sep : UInt8} {s t : Bytes} (h : t ∈ s.splitOn sep) : sep ∉ t := by
  induction s generalizing t with
  | nil =>
    rw [List.splitOn_nil, List.mem_singleton] at h
    rw [h]
    exact List.not_mem_nil
  | cons c s ih =>
    rw [List.splitOn_cons_eq_if_modifyHead] at h
    split_ifs at h with hc
    · obtain rfl | h := List.mem_cons.mp h
      · exact List.not_mem_nil
      · exact ih h
    · cases hsplit : s.splitOn sep with
      | nil => exact absurd hsplit (List.splitOn_ne_nil sep s)
      | cons first others =>
        rw [hsplit, List.modifyHead_cons] at h
        obtain rfl | h := List.mem_cons.mp h
        · rw [List.mem_cons, not_or]
          refine ⟨fun heq => ?_, ih (hsplit ▸ List.mem_cons_self)⟩
          rw [heq, beq_self_eq_true] at hc
          exact hc rfl
        · exact ih (hsplit ▸ List.mem_cons_of_mem first h)

theorem sign_notMem {range text : Bytes} (h : text ∈ subRanges range) : 45 ∉ text := by
  obtain ⟨t, ht, rfl⟩ := List.mem_map.mp h
  exact fun hmem => notMem_of_mem_splitOn ht (mem_trimSv hmem)

theorem mapM_eq_none_of_mem {α β : Type} {f : α → Option β} {l : List α} {a : α} (ha : a ∈ l)
    (h : f a = none) : l.mapM f = none := by
  induction l with
  | nil => cases ha
  | cons b l ih =>
    rw [List.mapM_cons]
    obtain rfl | ha := List.mem_cons.mp ha
    · rw [h]
      rfl
    · cases hb : f b with
      | none => rfl
      | some c =>
        rw [ih ha]
        rfl

theorem mapM_congr_mem {α β : Type} {f g : α → Option β} {l : List α} (h : ∀ a ∈ l, f a = g a) :
    l.mapM f = l.mapM g := by
  induction l with
  | nil => rfl
  | cons a l ih =>
    rw [List.mapM_cons, List.mapM_cons, h a List.mem_cons_self,
      ih fun b hb => h b (List.mem_cons_of_mem a hb)]

theorem exists_of_mem_mapM {α β : Type} {f : α → Option β} {l : List α} {l' : List β}
    (h : l.mapM f = some l') {b : β} (hb : b ∈ l') : ∃ a ∈ l, f a = some b := by
  induction l generalizing l' with
  | nil =>
    cases h
    cases hb
  | cons a l ih =>
    rw [List.mapM_cons] at h
    obtain ⟨c, hc, h⟩ := Option.bind_eq_some_iff.mp h
    obtain ⟨l'', hl, h⟩ := Option.bind_eq_some_iff.mp h
    cases h
    obtain rfl | hb := List.mem_cons.mp hb
    · exact ⟨a, List.mem_cons_self, hc⟩
    · obtain ⟨a', ha', hf⟩ := ih hl hb
      exact ⟨a', List.mem_cons_of_mem a ha', hf⟩

/-- What a range stands for lies in the file. -/
theorem rangeOf_bounds {size : ℕ} {texts : List Bytes} {r : ℤ × ℤ}
    (h : rangeOf size texts = some r) : 0 ≤ r.1 ∧ r.1 ≤ r.2 ∧ r.2 < size := by
  obtain ⟨spec, -, h⟩ := Option.bind_eq_some_iff.mp h
  obtain ⟨⟨first, last⟩, hrange, rfl⟩ := Option.map_eq_some_iff.mp h
  obtain ⟨hle, hlt⟩ := spec.range_bounds hrange
  dsimp only
  omega

/-- A text that is empty or just a sign asks for the whole file, and one with two signs in a row is
not valid. Of the other lists, one with a piece that cannot be read or lies behind the end is not
valid; where the code treats each piece as its form says, the list is valid if each stands for
something in the file, and the pairs are those ranges in their order. -/
theorem parseRanges_reads (s : Bytes) (size : ℕ) (h0 : 0 < size) (h : size < 2 ^ 31) :
    (trimSv s = [] ∨ trimSv s = [45] → parseRanges s size = some [(0, (size : ℤ) - 1)]) ∧
    ([45, 45] <:+: trimSv s → parseRanges s size = none) ∧
    (trimSv s ≠ [] → trimSv s ≠ [45] → ¬ [45, 45] <:+: trimSv s →
      ((∃ texts ∈ pieces (trimSv s), Refused size texts) → parseRanges s size = none) ∧
      ((∀ texts ∈ pieces (trimSv s), Regular size texts) →
        parseRanges s size = (pieces (trimSv s)).mapM (rangeOf size) ∧
        ∀ pairs, parseRanges s size = some pairs →
          ∀ r ∈ pairs, 0 ≤ r.1 ∧ r.1 ≤ r.2 ∧ r.2 < (size : ℤ))) := by
  have hwhole := toInt32_of_lt ((size : ℤ) - 1) (by omega) (by omega)
  refine ⟨?_, ?_, ?_⟩
  · intro hs
    rw [parseRanges, hwhole]
    obtain hs | hs := hs
    · rw [if_pos hs]
    · rw [hs]
      rfl
  · intro hsigns
    have hne : trimSv s ≠ [] := fun hnil => absurd (hnil ▸ hsigns) (by decide)
    rw [parseRanges, if_neg hne, if_pos hsigns]
  · intro hne hsign hsigns
    have hlist : parseRanges s size = (pieces (trimSv s)).mapM (parseRange size) := by
      rw [parseRanges, if_neg hne, if_neg hsigns, if_neg hsign, pieces, List.mapM_map]
      rfl
    have hplain : ∀ texts ∈ pieces (trimSv s), ∀ text ∈ texts, 45 ∉ text := by
      intro texts htexts text htext
      obtain ⟨range, -, rfl⟩ := List.mem_map.mp htexts
      exact sign_notMem htext
    constructor
    · rintro ⟨texts, htexts, href⟩
      rw [hlist]
      exact mapM_eq_none_of_mem htexts (parseRange_of_refused h0 h (hplain texts htexts) href)
    · intro hreg
      have heq : parseRanges s size = (pieces (trimSv s)).mapM (rangeOf size) := by
        rw [hlist]
        apply mapM_congr_mem
        intro texts htexts
        exact parseRange_of_regular h0 h (hplain texts htexts) (hreg texts htexts)
      refine ⟨heq, fun pairs hpairs r hr => ?_⟩
      obtain ⟨texts, -, hrange⟩ := exists_of_mem_mapM (heq.symm.trans hpairs) hr
      exact rangeOf_bounds hrange

/-- `200-999, 2000-2499,9500-,-900` of ten thousand bytes. -/
theorem parseRanges_four : parseRanges (ascii "200-999, 2000-2499,9500-,-900") 10000 =
    some [(200, 999), (2000, 2499), (9500, 9999), (9100, 9999)] := by
  have hreads := parseRanges_reads (ascii "200-999, 2000-2499,9500-,-900") 10000 (by decide)
    (by decide)
  have hpieces : pieces (trimSv (ascii "200-999, 2000-2499,9500-,-900")) =
      [[ascii "200", ascii "999"], [ascii "2000", ascii "2499"], [ascii "9500", []],
        [[], ascii "900"]] := by decide +kernel
  rw [hpieces] at hreads
  refine ((hreads.2.2 (by decide +kernel) (by decide +kernel) (by decide +kernel)).2 ?_).1.trans
    (by decide +kernel)
  simp only [List.forall_mem_cons, List.not_mem_nil, false_implies, implies_true, and_true]
  refine ⟨.inr ⟨.fromTo 200 999, by decide +kernel, ?_⟩, .inr ⟨.fromTo 2000 2499,
    by decide +kernel, ?_⟩, .inr ⟨.from 9500, by decide +kernel, ?_⟩, .inr ⟨.suffix 900,
    by decide +kernel, ?_⟩⟩ <;> simp [Inside]

/-- `digits-digits`, `digits-` or `-digits`. -/
def IsRangeText (t : Bytes) : Prop :=
  ∃ first last, t = first ++ 45 :: last ∧ (first ≠ [] ∨ last ≠ []) ∧
    ∀ c ∈ first ++ last, isDigit c = true

/-- A number alone has none of the three forms, and `900` is not refused. -/
theorem not_refused_number :
    ¬ ∀ (s : Bytes) (size : ℕ), 0 < size → (∃ t ∈ s.splitOn 44, ¬ IsRangeText t) →
      parseRanges s size = none := by
  intro hrefused
  have hlist : (ascii "900").splitOn 44 = [ascii "900"] := by decide
  have hnot : ¬ IsRangeText (ascii "900") := by
    rintro ⟨first, last, heq, -, -⟩
    have hmem : 45 ∈ ascii "900" := heq ▸ List.mem_append_right first List.mem_cons_self
    exact absurd hmem (by decide)
  have hnone := hrefused (ascii "900") 10000 (by decide) ⟨_, hlist ▸ List.mem_cons_self, hnot⟩
  exact absurd hnone (by decide +kernel)

end Yalantinglibs.Cinatra
