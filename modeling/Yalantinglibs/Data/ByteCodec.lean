import Mathlib.Algebra.Order.Ring.Nat
import Mathlib.Data.FinEnum
import Mathlib.Tactic.Ring

/-!
# Byte strings: fixed-width words and base-128 varints

A wire format is a list of bytes. Two integer codecs recur in such formats: a word of a
fixed number of bytes, least significant byte first, and the base-128 varint, whose bytes
carry seven bits each and set the eighth while more bytes follow.

## Main definitions

* `toLE` / `ofLE` — the fixed-width little-endian word
* `varintBytes` — the varint of a number, as a loop with a bound on its iterations
* `readVarint` — the bounded varint reader, which reports how it ended as a `VarintRead`

## Main results

* `ofLE_toLE` — a word that fits its width is read back unchanged
* `readVarint_varintBytes` — a varint below the bound is read back, and the reader stops
  exactly behind it
-/

set_option autoImplicit false

namespace Yalantinglibs

/-- A byte string. -/
abbrev Bytes := List UInt8

/-- What holds of the bytes of a string is decided one by one, although the type is finite and all
the bytes that there are could be gone through. -/
instance decidableForallMem (p : UInt8 → Prop) [DecidablePred p] (l : Bytes) :
    Decidable (∀ a ∈ l, p a) :=
  List.decidableBAll p l

instance decidableExistsMem (p : UInt8 → Prop) [DecidablePred p] (l : Bytes) :
    Decidable (∃ a ∈ l, p a) :=
  List.decidableBEx p l

instance lawfulBEqBytes : LawfulBEq Bytes := inferInstance

namespace ByteCodec

/-! ### Fixed-width words -/

/-- The low `w` bytes of `n`, least significant first. -/
def toLE : ℕ → ℕ → Bytes
  | 0, _ => []
  | w + 1, n => UInt8.ofNat n :: toLE w (n / 256)

/-- The number whose little-endian bytes are given. -/
def ofLE : Bytes → ℕ
  | [] => 0
  | b :: bs => b.toNat + 256 * ofLE bs

@[simp] theorem toLE_length (w n : ℕ) : (toLE w n).length = w := by
  induction w generalizing n with
  | zero => rfl
  | succ w ih => simp only [toLE, List.length_cons, ih]

theorem ofLE_lt (bs : Bytes) : ofLE bs < 256 ^ bs.length := by
  induction bs with
  | nil => simp [ofLE]
  | cons b bs ih =>
    have hb : b.toNat < 256 := b.toNat_lt
    rw [ofLE, List.length_cons, pow_succ]
    omega

theorem ofLE_toLE_mod (w n : ℕ) : ofLE (toLE w n) = n % 256 ^ w := by
  induction w generalizing n with
  | zero => simp [toLE, ofLE, Nat.mod_one]
  | succ w ih =>
    have hb : (UInt8.ofNat n).toNat = n % 256 := by simp
    rw [toLE, ofLE, ih, hb, pow_succ', Nat.mod_mul]

/-- A word that fits its width survives the round trip. -/
theorem ofLE_toLE {w n : ℕ} (h : n < 256 ^ w) : ofLE (toLE w n) = n := by
  rw [ofLE_toLE_mod, Nat.mod_eq_of_lt h]

theorem toLE_ofLE (bs : Bytes) : toLE bs.length (ofLE bs) = bs := by
  induction bs with
  | nil => rfl
  | cons b bs ih =>
    have hb : b.toNat < 256 := b.toNat_lt
    have hlow : UInt8.ofNat (b.toNat + 256 * ofLE bs) = b := by
      apply UInt8.toNat_inj.mp
      simp
    have hhigh : (b.toNat + 256 * ofLE bs) / 256 = ofLE bs := by omega
    rw [List.length_cons, ofLE, toLE, hlow, hhigh, ih]

theorem ofLE_injective {as bs : Bytes} (hl : as.length = bs.length) (h : ofLE as = ofLE bs) :
    as = bs := by
  rw [← toLE_ofLE as, ← toLE_ofLE bs, hl, h]

theorem ofLE_append (as bs : Bytes) : ofLE (as ++ bs) = ofLE as + 256 ^ as.length * ofLE bs := by
  induction as with
  | nil => simp [ofLE]
  | cons a as ih =>
    simp only [List.cons_append, ofLE, ih, List.length_cons, pow_succ]
    ring

theorem ofLE_take {n : ℕ} {bs : Bytes} (h : n ≤ bs.length) :
    ofLE (bs.take n) = ofLE bs % 256 ^ n := by
  have hlen : (bs.take n).length = n := by simpa using h
  have hsplit := ofLE_append (bs.take n) (bs.drop n)
  rw [List.take_append_drop, hlen] at hsplit
  have hlt := ofLE_lt (bs.take n)
  rw [hlen] at hlt
  rw [hsplit, Nat.add_mul_mod_self_left, Nat.mod_eq_of_lt hlt]

/-! ### Base-128 varints -/

/-- The varint of `v`: low seven bits first, each byte but the last with its high bit set.
The first argument bounds the bytes with the high bit. -/
def varintBytes : ℕ → ℕ → Bytes
  | 0, v => [UInt8.ofNat v]
  | k + 1, v =>
    if v < 0x80 then [UInt8.ofNat v]
    else UInt8.ofNat (v ||| 0x80) :: varintBytes k (v >>> 7)

/-- How many seven-bit groups `v` has, at least one, with the same bound. -/
def varintSize : ℕ → ℕ → ℕ
  | 0, _ => 1
  | k + 1, v => if v >>> 7 = 0 then 1 else 1 + varintSize k (v >>> 7)

/-- How a bounded varint read ended. -/
inductive VarintRead
  /-- the number and the bytes behind it -/
  | value (v : ℕ) (rest : Bytes)
  /-- the input ended first -/
  | exhausted
  /-- the bound was reached with the continuation bit still set -/
  | tooLong (rest : Bytes)
  deriving DecidableEq, Repr

/-- Read at most `k` bytes; `i` counts those read and `acc` collects their bits, which are
kept modulo `2 ^ 64`. -/
def readVarint : ℕ → ℕ → ℕ → Bytes → VarintRead
  | 0, _, _, bs => .tooLong bs
  | _ + 1, _, _, [] => .exhausted
  | k + 1, i, acc, b :: bs =>
    let acc' := acc ||| (((b.toNat &&& 0x7f) <<< (i * 7)) % 2 ^ 64)
    if b.toNat &&& 0x80 = 0 then .value acc' bs else readVarint k (i + 1) acc' bs

/-- A number takes a byte at least. -/
theorem readVarint_length_lt {k i acc n : ℕ} {bs rest : Bytes}
    (h : readVarint k i acc bs = .value n rest) : rest.length < bs.length := by
  induction k generalizing i acc bs with
  | zero => cases h
  | succ k ih =>
    cases bs with
    | nil => cases h
    | cons b bs =>
      rw [readVarint] at h
      rw [List.length_cons]
      split_ifs at h with hlast
      · cases h
        exact Nat.lt_succ_self _
      · exact (ih h).trans (Nat.lt_succ_self _)

theorem varintBytes_ne_nil (k v : ℕ) : varintBytes k v ≠ [] := by
  cases k with
  | zero => simp [varintBytes]
  | succ k =>
    rw [varintBytes]
    split <;> simp

theorem varintBytes_length (k v : ℕ) : (varintBytes k v).length = varintSize k v := by
  induction k generalizing v with
  | zero => rfl
  | succ k ih =>
    have hsmall : v < 0x80 ↔ v >>> 7 = 0 := by
      rw [Nat.shiftRight_eq_div_pow]
      omega
    rw [varintBytes, varintSize]
    split <;> rename_i h
    · rw [if_pos (hsmall.mp h), List.length_singleton]
    · rw [if_neg (mt hsmall.mpr h), List.length_cons, ih, Nat.add_comm]

private theorem continuation_byte (v : ℕ) :
    (UInt8.ofNat (v ||| 0x80)).toNat = v % 128 + 128 := by
  have hbyte : ∀ r < 256, (r ||| 0x80) = r % 128 + 128 := by decide +kernel
  have hmod : (v ||| 0x80) % 256 = (v % 256) ||| 0x80 := Nat.or_mod_two_pow (n := 8)
  have hlow : v % 256 % 128 = v % 128 := Nat.mod_mod_of_dvd v (by decide)
  simp only [UInt8.toNat_ofNat', Nat.reducePow]
  rw [hmod, hbyte _ (Nat.mod_lt _ (by decide)), hlow]

private theorem low_seven (x : ℕ) : x &&& 0x7f = x % 128 := Nat.and_two_pow_sub_one_eq_mod x 7

private theorem high_bit {x : ℕ} (hx : x < 256) : x &&& 0x80 = 0 ↔ x < 128 := by
  have h : ∀ r < 256, r &&& 0x80 = 0 ↔ r < 128 := by decide +kernel
  exact h x hx

/-- The accumulator and the next seven bits do not overlap, so the disjunction is a sum. -/
private theorem or_shift_eq_add {acc d i : ℕ} (hacc : acc < 2 ^ (i * 7))
    (hd : d * 2 ^ (i * 7) < 2 ^ 64) :
    acc ||| ((d <<< (i * 7)) % 2 ^ 64) = acc + d * 2 ^ (i * 7) := by
  rw [Nat.shiftLeft_eq, Nat.mod_eq_of_lt hd, Nat.or_comm, Nat.mul_comm d,
    ← Nat.two_pow_add_eq_or_of_lt hacc, Nat.add_comm]

/-- A byte without the high bit ends the varint. -/
private theorem readVarint_last {i acc v : ℕ} (k : ℕ) (s : Bytes) (hv : v < 0x80)
    (hacc : acc < 2 ^ (i * 7)) (hfit : v * 2 ^ (i * 7) < 2 ^ 64) :
    readVarint (k + 1) i acc (UInt8.ofNat v :: s) = .value (acc + v * 2 ^ (i * 7)) s := by
  have hb : (UInt8.ofNat v).toNat = v := by
    simp only [UInt8.toNat_ofNat', Nat.reducePow]
    omega
  have hlow : v % 128 = v := Nat.mod_eq_of_lt hv
  simp only [readVarint, hb, low_seven, hlow, (high_bit (by omega : v < 256)).mpr hv, if_true]
  rw [or_shift_eq_add hacc hfit]

/-- Reading in the middle of a varint: `acc` holds the `i` groups read before. -/
theorem readVarint_varintBytes_aux (k i acc v : ℕ) (s : Bytes) (hv : v < 2 ^ (7 * (k + 1)))
    (hacc : acc < 2 ^ (i * 7)) (hfit : v * 2 ^ (i * 7) < 2 ^ 64) :
    readVarint (k + 1) i acc (varintBytes k v ++ s) = .value (acc + v * 2 ^ (i * 7)) s := by
  induction k generalizing i acc v with
  | zero => exact readVarint_last 0 s (by simpa using hv) hacc hfit
  | succ k ih =>
    by_cases hsmall : v < 0x80
    · rw [varintBytes, if_pos hsmall]
      exact readVarint_last (k + 1) s hsmall hacc hfit
    · have hnz : ¬ (v % 128 + 128) &&& 0x80 = 0 := by
        rw [high_bit (by omega)]
        omega
      have hlow : (v % 128 + 128) % 128 = v % 128 := by omega
      have hpos : 0 < 2 ^ (i * 7) := Nat.two_pow_pos _
      have hsplit : v % 128 + 128 * (v / 128) = v := Nat.mod_add_div v 128
      have hpow : 2 ^ ((i + 1) * 7) = 128 * 2 ^ (i * 7) := by
        rw [Nat.succ_mul, pow_add]
        ring
      have hle : v % 128 * 2 ^ (i * 7) ≤ v * 2 ^ (i * 7) :=
        Nat.mul_le_mul_right _ (Nat.mod_le v 128)
      have hdiv : v / 128 < 2 ^ (7 * (k + 1)) := by
        rw [Nat.div_lt_iff_lt_mul (by decide)]
        calc v < 2 ^ (7 * (k + 1) + 7) := hv
          _ = 2 ^ (7 * (k + 1)) * 128 := by rw [pow_add]; norm_num
      have hnext : v / 128 * 2 ^ ((i + 1) * 7) ≤ v * 2 ^ (i * 7) := by
        rw [hpow, ← Nat.mul_assoc]
        exact Nat.mul_le_mul_right _ (Nat.div_mul_le_self v 128)
      have hacc' : acc + v % 128 * 2 ^ (i * 7) < 2 ^ ((i + 1) * 7) := by
        have hd : v % 128 ≤ 127 := by omega
        have := Nat.mul_le_mul_right (2 ^ (i * 7)) hd
        omega
      simp only [varintBytes, if_neg hsmall, List.cons_append, readVarint, continuation_byte,
        low_seven, hlow, if_neg hnz]
      rw [or_shift_eq_add hacc (by omega), Nat.shiftRight_eq_div_pow,
        ih (i + 1) _ _ hdiv hacc' (by omega)]
      congr 1
      calc acc + v % 128 * 2 ^ (i * 7) + v / 2 ^ 7 * 2 ^ ((i + 1) * 7)
          = acc + (v % 128 + 128 * (v / 128)) * 2 ^ (i * 7) := by
            rw [hpow]
            ring_nf
        _ = acc + v * 2 ^ (i * 7) := by rw [hsplit]

/-- Reading a varint of a 64-bit number from the start returns it. -/
theorem readVarint_varintBytes {v : ℕ} (h : v < 2 ^ 64) (s : Bytes) :
    readVarint 10 0 0 (varintBytes 9 v ++ s) = .value v s := by
  have := readVarint_varintBytes_aux 9 0 0 v s (by omega) (by simp) (by simpa using h)
  simpa using this

end ByteCodec

end Yalantinglibs
