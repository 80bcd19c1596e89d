import Yalantinglibs.Data.ByteSearch
import Yalantinglibs.Iguana.Utf

/-!
# Scanning a text eight bytes at a time

The scanners of iguana, `skip_till_escape_or_qoute`, `skip_till<c>` and their like, look at eight
bytes at once as long as there are eight, and at single bytes then. They differ in the characters
they stop at and in the test of a chunk, which is the test for a zero byte of `iguana/util.hpp`
behind an exclusive or.

## Main definitions

* `matchChars` — `match`
* `hasByteOf` — `has_qoute`, `has_escape` and their like
* `scan` — the scanners, `scanTail` their last loop

## Main results

* `scan_eq` — eight bytes at a time or one by one, a scan ends alike
-/

set_option autoImplicit false

namespace Yalantinglibs.Iguana

open ByteCodec ByteSearch

/-! ### Characters -/

/-- The code of `'/'`. -/
def slash : UInt8 := 0x2F

/-- The code of a line feed. -/
def lineFeed : UInt8 := 0x0A

/-- `match<C...>`. -/
def matchChars (expected : Bytes) (it : Bytes) : Except Fault Bytes :=
  if it.length < expected.length then raise "Unexpected end of buffer. Expected:"
  else if it.take expected.length = expected then .ok (it.drop expected.length)
  else raise ("Expected these: " ++ String.ofList (expected.map fun c => Char.ofNat c.toNat))

@[simp] theorem matchChars_append (expected it : Bytes) :
    matchChars expected (expected ++ it) = .ok it := by
  rw [matchChars, if_neg (by simp), if_pos (by simp), List.drop_left]

theorem matchChars_cons (c : UInt8) (it : Bytes) : matchChars [c] (c :: it) = .ok it :=
  matchChars_append [c] it

/-! ### The scanners -/

/-- `has_zero`. -/
def hasZeroByte (chunk : ℕ) : ℕ :=
  (chunk + (2 ^ 64 - 0x0101010101010101)) % 2 ^ 64 &&& (2 ^ 64 - 1 - chunk) &&& 0x8080808080808080

/-- `has_qoute` and its like: the chunk against eight bytes of one character. -/
def hasByteOf (c : UInt8) (chunk : ℕ) : ℕ :=
  hasZeroByte (chunk ^^^ c.toNat * 0x0101010101010101)

/-- The last loop of a scanner: up to the first character it stops at, if there is one. -/
def scanTail (stop : UInt8 → Bool) : Bytes → Option Bytes
  | [] => none
  | c :: it => if stop c then some (c :: it) else scanTail stop it

/-- A scanner with its test of a chunk, from the iterator on. -/
def scan (test : ℕ → ℕ) (stop : UInt8 → Bool) : Bytes → Option Bytes
  | b0 :: b1 :: b2 :: b3 :: b4 :: b5 :: b6 :: b7 :: it =>
    let marks := test (ofLE [b0, b1, b2, b3, b4, b5, b6, b7])
    if marks ≠ 0 then
      some ((b0 :: b1 :: b2 :: b3 :: b4 :: b5 :: b6 :: b7 :: it).drop (countrZero 64 marks >>> 3))
    else scan test stop it
  | it => scanTail stop it

section Scan

variable {stop : UInt8 → Bool} {bs : Bytes}

theorem scanTail_of_forall (it : Bytes) (h : ∀ c ∈ bs, stop c = false) :
    scanTail stop (bs ++ it) = scanTail stop it := by
  induction bs with
  | nil => rfl
  | cons c bs ih =>
    rw [List.cons_append, scanTail, h c List.mem_cons_self, if_neg Bool.false_ne_true,
      ih fun d hd => h d (List.mem_cons_of_mem _ hd)]

/-- A scan stops behind a run of other characters. -/
theorem scanTail_append (h : ∀ c ∈ bs, stop c = false) {c : UInt8} (hc : stop c = true)
    (it : Bytes) : scanTail stop (bs ++ c :: it) = some (c :: it) := by
  rw [scanTail_of_forall _ h, scanTail, if_pos hc]

theorem scanTail_eq_none (h : ∀ c ∈ bs, stop c = false) : scanTail stop bs = none := by
  rw [← List.append_nil bs, scanTail_of_forall _ h, scanTail]

private theorem scanTail_of_exists (it : Bytes) (h : ∃ c ∈ bs, stop c = true) :
    scanTail stop (bs ++ it) = some ((bs ++ it).drop (bs.findIdx stop)) := by
  induction bs with
  | nil => simp at h
  | cons c bs ih =>
    rw [List.cons_append, scanTail, List.findIdx_cons]
    cases hc : stop c with
    | true => rfl
    | false =>
      rw [if_neg Bool.false_ne_true, ih (by simpa [hc] using h)]
      rfl

/-- Eight bytes at a time or one by one, a scan ends alike. -/
theorem scan_eq {test : ℕ → ℕ}
    (htest : ∀ chunk : Bytes, chunk.length = 8 → Marks (chunk.map stop) (test (ofLE chunk)))
    (it : Bytes) : scan test stop it = scanTail stop it := by
  induction it using scan.induct test with
  | case1 b0 b1 b2 b3 b4 b5 b6 b7 it marks hne =>
    have hmarks := htest [b0, b1, b2, b3, b4, b5, b6, b7] rfl
    have hmem : true ∈ [b0, b1, b2, b3, b4, b5, b6, b7].map stop := by
      by_contra hnot
      exact hne (hmarks.eq_zero_iff.mpr hnot)
    have hindex := hmarks.countrZero_eq hmem
    rw [List.findIdx_map, Function.id_comp] at hindex
    rw [scan, if_pos hne]
    have htail := scanTail_of_exists it (List.mem_map.mp hmem)
    exact (htail.trans (by rw [← hindex]; rfl)).symm
  | case2 b0 b1 b2 b3 b4 b5 b6 b7 it marks hne ih =>
    have hmarks := htest [b0, b1, b2, b3, b4, b5, b6, b7] rfl
    have hforall : ∀ c ∈ [b0, b1, b2, b3, b4, b5, b6, b7], stop c = false := by
      intro c hc
      by_contra hstop
      refine hmarks.eq_zero_iff.mp (not_not.mp hne) ?_
      exact List.mem_map.mpr ⟨c, hc, by simpa using hstop⟩
    rw [scan, if_neg hne, ih]
    exact (scanTail_of_forall it hforall).symm
  | case3 it h => rw [scan]; exact h

/-- The test for one character. -/
theorem marks_hasByteOf (c : UInt8) {chunk : Bytes} (hlen : chunk.length = 8) :
    Marks (chunk.map fun b => b = c) (hasByteOf c (ofLE chunk)) := by
  have := marks_hasByte c chunk
  rw [hlen] at this
  exact this

/-- The tests for two characters together. -/
theorem marks_or (c d : UInt8) {chunk : Bytes} (hlen : chunk.length = 8) :
    Marks (chunk.map fun b => b = c || b = d)
      (hasByteOf c (ofLE chunk) ||| hasByteOf d (ofLE chunk)) := by
  have := (marks_hasByteOf c hlen).or (marks_hasByteOf d hlen) (by simp)
  rwa [List.zipWith_map, List.zipWith_self] at this

end Scan

end Yalantinglibs.Iguana
