import Yalantinglibs.Data.ByteCodec
import Mathlib.Data.Nat.Bitwise

/-!
# Searching the bytes of a word

Whether one of the bytes of a word is zero can be asked of all bytes at once: subtract one from
each byte, and look for a high bit that was not set before. A borrow may set the mark of a byte
behind a zero byte too, but the lowest mark is right, and with it the position of the first zero
byte.

## Main definitions

* `hasZero`, `hasByte` — a word with marks for the zero bytes, and for the bytes of a value
* `countrZero` — the number of zero bits below the lowest set bit
* `Marks` — the lowest mark of a word is that of the first flag which is set

## Main results

* `marks_hasByte` — the marks of the bytes of a value
* `Marks.or` — two words of marks together
* `Marks.eq_zero_iff`, `Marks.countrZero_eq` — how the position is read off
-/

set_option autoImplicit false

namespace Yalantinglibs.ByteSearch

open ByteCodec

/-- A word of `n` bytes, each of them `1`. -/
def ones : ℕ → ℕ
  | 0 => 0
  | n + 1 => 1 + 256 * ones n

/-- Marks for the zero bytes of a word of `n` bytes. -/
def hasZero (n v : ℕ) : ℕ :=
  (v + (256 ^ n - ones n)) % 256 ^ n &&& (256 ^ n - 1 - v) &&& 128 * ones n

/-- Marks for the bytes of value `q`. -/
def hasByte (n q v : ℕ) : ℕ := hasZero n (v ^^^ q * ones n)

/-- The zero bits below the lowest set bit of a word of `w` bits. -/
def countrZero : ℕ → ℕ → ℕ
  | 0, _ => 0
  | w + 1, v => if v % 2 = 1 then 0 else countrZero w (v / 2) + 1

/-- The lowest mark of a word is that of the first flag that is set. -/
def Marks : List Bool → ℕ → Prop
  | [], v => v = 0
  | false :: fs, v => ∃ v', v = 256 * v' ∧ Marks fs v'
  | true :: _, v => v % 256 = 128

/-! ### The lowest byte and the others -/

section Bytewise

variable {a b c d : ℕ}

private theorem testBit_add (ha : a < 256) (i : ℕ) :
    (a + 256 * b).testBit i = if i < 8 then a.testBit i else b.testBit (i - 8) := by
  rw [Nat.add_comm]
  exact Nat.testBit_two_pow_mul_add b (show a < 2 ^ 8 from ha) i

theorem and_add (ha : a < 256) (hc : c < 256) :
    (a + 256 * b) &&& (c + 256 * d) = (a &&& c) + 256 * (b &&& d) := by
  apply Nat.eq_of_testBit_eq
  intro i
  rw [testBit_add (Nat.and_le_left.trans_lt ha), Nat.testBit_and, testBit_add ha, testBit_add hc]
  split <;> simp

theorem or_add (ha : a < 256) (hc : c < 256) :
    (a + 256 * b) ||| (c + 256 * d) = (a ||| c) + 256 * (b ||| d) := by
  apply Nat.eq_of_testBit_eq
  intro i
  rw [testBit_add (show a ||| c < 2 ^ 8 from Nat.or_lt_two_pow ha hc), Nat.testBit_or,
    testBit_add ha, testBit_add hc]
  split <;> simp

theorem xor_add (ha : a < 256) (hc : c < 256) :
    (a + 256 * b) ^^^ (c + 256 * d) = (a ^^^ c) + 256 * (b ^^^ d) := by
  apply Nat.eq_of_testBit_eq
  intro i
  rw [testBit_add (show a ^^^ c < 2 ^ 8 from Nat.xor_lt_two_pow ha hc), Nat.testBit_xor,
    testBit_add ha, testBit_add hc]
  split <;> simp

end Bytewise

/-! ### Marks -/

theorem ones_lt (n : ℕ) : ones n < 256 ^ n := by
  induction n with
  | zero => simp [ones]
  | succ n ih =>
    rw [ones, pow_succ]
    omega

/-- A byte that is not zero gets no mark, and does not touch the marks of those behind it. -/
theorem hasZero_succ {n b v : ℕ} (hb : b < 256) (hv : v < 256 ^ n) (hne : b ≠ 0) :
    hasZero (n + 1) (b + 256 * v) = 256 * hasZero n v := by
  have hones := ones_lt n
  have hsub : (b + 256 * v + (256 ^ (n + 1) - ones (n + 1))) % 256 ^ (n + 1) =
      (b - 1) + 256 * ((v + (256 ^ n - ones n)) % 256 ^ n) := by
    have hsum : b + 256 * v + (256 ^ (n + 1) - ones (n + 1)) =
        (b - 1) + 256 * (v + (256 ^ n - ones n)) := by
      rw [ones, pow_succ]
      omega
    rw [hsum, pow_succ, Nat.mul_comm (256 ^ n) 256, Nat.mod_mul, Nat.add_mul_mod_self_left,
      Nat.mod_eq_of_lt (by omega), Nat.add_mul_div_left _ _ (by decide),
      Nat.div_eq_of_lt (by omega), Nat.zero_add]
  have hnot : 256 ^ (n + 1) - 1 - (b + 256 * v) = (255 - b) + 256 * (256 ^ n - 1 - v) := by
    rw [pow_succ]
    omega
  have hbits : (b - 1) &&& (255 - b) &&& 128 = 0 := by
    have key : ∀ b < 256, b ≠ 0 → (b - 1) &&& (255 - b) &&& 128 = 0 := by decide +kernel
    exact key b hb hne
  have hand : (b - 1) &&& (255 - b) < 256 := Nat.and_le_left.trans_lt (by omega)
  rw [hasZero, hsub, hnot, and_add (by omega) (by omega), ones, Nat.mul_add, Nat.mul_one,
    Nat.mul_left_comm, and_add hand (by decide), hbits, Nat.zero_add, hasZero]

/-- A zero byte gets the lowest mark. -/
theorem hasZero_zero (n v : ℕ) (hv : v < 256 ^ n) : hasZero (n + 1) (256 * v) % 256 = 128 := by
  have hones := ones_lt n
  have hsub : (256 * v + (256 ^ (n + 1) - ones (n + 1))) % 256 ^ (n + 1) =
      255 + 256 * ((v + (256 ^ n - ones n - 1)) % 256 ^ n) := by
    have hsum : 256 * v + (256 ^ (n + 1) - ones (n + 1)) =
        255 + 256 * (v + (256 ^ n - ones n - 1)) := by
      rw [ones, pow_succ]
      omega
    rw [hsum, pow_succ, Nat.mul_comm (256 ^ n) 256, Nat.mod_mul, Nat.add_mul_mod_self_left,
      Nat.add_mul_div_left _ _ (by decide)]
    simp
  have hnot : 256 ^ (n + 1) - 1 - 256 * v = 255 + 256 * (256 ^ n - 1 - v) := by
    rw [pow_succ]
    omega
  rw [hasZero, hsub, hnot, and_add (by decide) (by decide), ones, Nat.mul_add, Nat.mul_one,
    Nat.mul_left_comm, and_add (by decide) (by decide), Nat.add_mul_mod_self_left]
  decide

theorem marks_hasZero (bs : Bytes) :
    Marks (bs.map fun b => b.toNat = 0) (hasZero bs.length (ofLE bs)) := by
  induction bs with
  | nil => rfl
  | cons b bs ih =>
    have hb : b.toNat < 256 := b.toNat_lt
    rw [List.map_cons, List.length_cons, ofLE]
    by_cases hzero : b.toNat = 0
    · rw [hzero, Nat.zero_add, decide_eq_true rfl]
      exact hasZero_zero _ _ (ofLE_lt bs)
    · rw [decide_eq_false hzero]
      exact ⟨_, hasZero_succ hb (ofLE_lt bs) hzero, ih⟩

/-- The bytes of a word against a value. -/
theorem ofLE_xor (bs : Bytes) (q : UInt8) :
    ofLE bs ^^^ q.toNat * ones bs.length = ofLE (bs.map (· ^^^ q)) := by
  induction bs with
  | nil => simp [ofLE, ones]
  | cons b bs ih =>
    have hb : b.toNat < 256 := b.toNat_lt
    have hq : q.toNat < 256 := q.toNat_lt
    rw [List.map_cons, ofLE, ofLE, List.length_cons, ones, Nat.mul_add, Nat.mul_one,
      Nat.mul_left_comm, xor_add hb hq, ih, UInt8.toNat_xor]

theorem marks_hasByte (q : UInt8) (bs : Bytes) :
    Marks (bs.map fun b => b = q) (hasByte bs.length q.toNat (ofLE bs)) := by
  have hmarks := marks_hasZero (bs.map (· ^^^ q))
  rw [List.map_map, List.length_map] at hmarks
  rw [hasByte, ofLE_xor]
  refine (congrArg (Marks · _) (List.map_congr_left fun b _ => ?_)).mp hmarks
  rw [Function.comp_apply, decide_eq_decide, ← UInt8.toNat_zero, UInt8.toNat_inj]
  constructor
  · intro h
    have : b ^^^ q ^^^ q = 0 ^^^ q := by rw [h]
    simpa [UInt8.xor_assoc] using this
  · rintro rfl
    exact UInt8.xor_self

theorem Marks.or {fs gs : List Bool} {u v : ℕ} (hu : Marks fs u) (hv : Marks gs v)
    (hlen : fs.length = gs.length) : Marks (List.zipWith (· || ·) fs gs) (u ||| v) := by
  induction fs generalizing gs u v with
  | nil =>
    obtain rfl := List.eq_nil_of_length_eq_zero hlen.symm
    obtain rfl : u = 0 := hu
    obtain rfl : v = 0 := hv
    rfl
  | cons f fs ih =>
    obtain ⟨g, gs, rfl⟩ := List.exists_cons_of_length_eq_add_one hlen.symm
    have hlow : ∀ {w : ℕ}, w % 256 = 128 → w = 128 + 256 * (w / 256) := by omega
    have hcut : ∀ {w : ℕ}, (128 + 256 * w) % 256 = 128 := by omega
    cases f <;> cases g
    · obtain ⟨u, rfl, hu⟩ := hu
      obtain ⟨v, rfl, hv⟩ := hv
      refine ⟨u ||| v, ?_, ih hu hv (Nat.succ.inj hlen)⟩
      simpa using or_add (a := 0) (b := u) (c := 0) (d := v) (by decide) (by decide)
    · obtain ⟨u, rfl, -⟩ := hu
      have := or_add (a := 0) (b := u) (c := 128) (d := v / 256) (by decide) (by decide)
      rw [Nat.zero_add, ← hlow hv] at this
      exact this ▸ hcut
    · obtain ⟨v, rfl, -⟩ := hv
      have := or_add (a := 128) (b := u / 256) (c := 0) (d := v) (by decide) (by decide)
      rw [Nat.zero_add, ← hlow hu] at this
      exact this ▸ hcut
    · have := or_add (a := 128) (b := u / 256) (c := 128) (d := v / 256) (by decide) (by decide)
      rw [← hlow hu, ← hlow hv] at this
      exact this ▸ hcut

theorem Marks.eq_zero_iff {fs : List Bool} {v : ℕ} (h : Marks fs v) : v = 0 ↔ true ∉ fs := by
  induction fs generalizing v with
  | nil =>
    obtain rfl : v = 0 := h
    simp
  | cons f fs ih =>
    cases f with
    | false =>
      obtain ⟨v, rfl, hv⟩ := h
      simpa using ih hv
    | true =>
      have hv : v % 256 = 128 := h
      simp only [List.mem_cons, true_or, not_true_eq_false, iff_false]
      rintro rfl
      simp at hv

private theorem countrZero_mul (w v k : ℕ) :
    countrZero (w + k) (2 ^ k * v) = countrZero w v + k := by
  induction k with
  | zero => simp
  | succ k ih =>
    have hdouble : 2 ^ (k + 1) * v = 2 * (2 ^ k * v) := by
      rw [pow_succ, Nat.mul_comm _ 2, Nat.mul_assoc]
    rw [← Nat.add_assoc, countrZero, hdouble, if_neg (by omega),
      Nat.mul_div_cancel_left _ (by decide), ih, Nat.add_assoc]

/-- The position of the first flag that is set. -/
theorem Marks.countrZero_eq {fs : List Bool} {v : ℕ} (h : Marks fs v) (hmem : true ∈ fs) :
    countrZero (8 * fs.length) v >>> 3 = fs.findIdx id := by
  induction fs generalizing v with
  | nil => simp at hmem
  | cons f fs ih =>
    rw [List.length_cons, Nat.mul_succ]
    cases f with
    | false =>
      obtain ⟨v, rfl, hv⟩ := h
      have ih := ih hv (by simpa using hmem)
      have hshift : countrZero (8 * fs.length + 8) (256 * v) = countrZero (8 * fs.length) v + 8 :=
        countrZero_mul _ v 8
      have hdiv : (countrZero (8 * fs.length) v + 8) >>> 3 =
          countrZero (8 * fs.length) v >>> 3 + 1 := by
        rw [Nat.shiftRight_eq_div_pow, Nat.shiftRight_eq_div_pow]
        exact Nat.add_div_right _ (by decide)
      rw [hshift, List.findIdx_cons, hdiv, ih]
      rfl
    | true =>
      have hv : v % 256 = 128 := h
      have hlow : v = 2 ^ 7 * (2 * (v / 256) + 1) := by omega
      have hshift : countrZero (8 * fs.length + 8) v = 7 := by
        rw [hlow, show 8 * fs.length + 8 = (8 * fs.length + 1) + 7 from rfl, countrZero_mul,
          countrZero, if_pos (by omega)]
      rw [hshift, List.findIdx_cons]
      rfl

end Yalantinglibs.ByteSearch
