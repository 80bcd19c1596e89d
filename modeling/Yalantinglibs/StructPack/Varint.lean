import Yalantinglibs.StructPack.Type
import Mathlib.Tactic.SplitIfs

/-!
# Varint members

A varint member is written by itself, seven bits a byte and zigzag mapped for the signed
wrappers, or, in a struct with `USE_FAST_VARINT`, in one block with the other varint members
of the struct.

## Main definitions

* `encodeZigzag`, `decodeZigzag` — the zigzag map of `varint.hpp`
* `serializeVarint`, `calculateVarintSize` — a varint and its size
* `varintWord`, `varintValue` — the number written for a member, and back

## Main results

* `decodeZigzag_encodeZigzag_mod` — the zigzag map is undone, whatever the width
* `varintValue_varintWord` — a member is restored from its number
-/

set_option autoImplicit false

namespace Yalantinglibs.StructPack

open ByteCodec

/-! ### Zigzag -/

/-- `encode_zigzag<U, T, Shift>` on `w`-bit integers, with `Shift = w - 1`. -/
def encodeZigzag {w : ℕ} (t : BitVec w) : BitVec w := (t <<< 1) ^^^ -(t >>> (w - 1))

/-- `decode_zigzag<T, U>` on `w`-bit integers. -/
def decodeZigzag {w : ℕ} (u : BitVec w) : BitVec w := (u >>> 1) ^^^ -(u &&& 1#w)

private theorem xor_neg_one {w : ℕ} (x : BitVec w) : x ^^^ -(1#w) = ~~~x := by
  rw [BitVec.neg_one_eq_allOnes, BitVec.xor_allOnes]

theorem encodeZigzag_toNat {w : ℕ} (hw : 0 < w) (t : BitVec w) :
    (encodeZigzag t).toNat =
      if t.toNat < 2 ^ (w - 1) then 2 * t.toNat else 2 * (2 ^ w - 1 - t.toNat) + 1 := by
  have hpow : 2 ^ w = 2 * 2 ^ (w - 1) := by
    rw [← pow_succ']
    congr 1
    omega
  have hlt := t.isLt
  have hdouble : (t <<< 1).toNat = 2 * t.toNat % 2 ^ w := by
    rw [BitVec.toNat_shiftLeft, Nat.shiftLeft_eq, pow_one, Nat.mul_comm]
  have hsign : (t >>> (w - 1)).toNat = t.toNat / 2 ^ (w - 1) := by
    rw [BitVec.toNat_ushiftRight, Nat.shiftRight_eq_div_pow]
  rw [encodeZigzag]
  split <;> rename_i h
  · have hzero : t >>> (w - 1) = 0#w := by
      apply BitVec.eq_of_toNat_eq
      rw [hsign, Nat.div_eq_of_lt h]
      simp
    rw [hzero, BitVec.neg_zero, BitVec.xor_zero, hdouble, Nat.mod_eq_of_lt (by omega)]
  · have hone : t >>> (w - 1) = 1#w := by
      apply BitVec.eq_of_toNat_eq
      have hq : t.toNat / 2 ^ (w - 1) = 1 := by
        rw [Nat.div_eq_iff (Nat.two_pow_pos _)]
        omega
      rw [hsign, hq, BitVec.toNat_ofNat, Nat.mod_eq_of_lt (Nat.one_lt_two_pow hw.ne')]
    rw [hone, xor_neg_one, BitVec.toNat_not, hdouble]
    have hmod : 2 * t.toNat % 2 ^ w = 2 * t.toNat - 2 ^ w := by
      rw [Nat.mod_eq_sub_mod (by omega), Nat.mod_eq_of_lt (by omega)]
    omega

theorem decodeZigzag_toNat {w : ℕ} (hw : 1 < w) (u : BitVec w) :
    (decodeZigzag u).toNat =
      if u.toNat % 2 = 0 then u.toNat / 2 else 2 ^ w - 1 - u.toNat / 2 := by
  have hlt := u.isLt
  have hhalf : (u >>> 1).toNat = u.toNat / 2 := by
    rw [BitVec.toNat_ushiftRight, Nat.shiftRight_eq_div_pow, pow_one]
  have hone : 1 % 2 ^ w = 1 := Nat.mod_eq_of_lt (Nat.one_lt_two_pow (by omega))
  have hbit : (u &&& 1#w).toNat = u.toNat % 2 := by
    rw [BitVec.toNat_and, BitVec.toNat_ofNat, hone, Nat.and_one_is_mod]
  rw [decodeZigzag]
  split <;> rename_i h
  · have hzero : u &&& 1#w = 0#w := by
      apply BitVec.eq_of_toNat_eq
      rw [hbit, h]
      simp
    rw [hzero, BitVec.neg_zero, BitVec.xor_zero, hhalf]
  · have heq : u &&& 1#w = 1#w := by
      apply BitVec.eq_of_toNat_eq
      rw [hbit, BitVec.toNat_ofNat, hone]
      omega
    rw [heq, xor_neg_one, BitVec.toNat_not, hhalf]

/-- The reader decodes in 64 bits and truncates, whatever the width of the integer. -/
theorem decodeZigzag_encodeZigzag_mod {w : ℕ} (hw : 0 < w) (hw' : w ≤ 64) (t : BitVec w) :
    (decodeZigzag (BitVec.ofNat 64 (encodeZigzag t).toNat)).toNat % 2 ^ w = t.toNat := by
  have hlt := t.isLt
  have hpow : 2 ^ w = 2 * 2 ^ (w - 1) := by
    rw [← pow_succ']
    congr 1
    omega
  have hdvd : 2 ^ w ∣ 2 ^ 64 := pow_dvd_pow 2 hw'
  obtain ⟨q, hq⟩ := hdvd
  have hqpos : 0 < q := by
    rcases Nat.eq_zero_or_pos q with rfl | h
    · simp at hq
    · exact h
  have hle : (encodeZigzag t).toNat < 2 ^ w := (encodeZigzag t).isLt
  have hword : (BitVec.ofNat 64 (encodeZigzag t).toNat).toNat = (encodeZigzag t).toNat := by
    rw [BitVec.toNat_ofNat]
    exact Nat.mod_eq_of_lt (hle.trans_le (Nat.pow_le_pow_right (by decide) hw'))
  rw [decodeZigzag_toNat (by decide), hword, encodeZigzag_toNat hw]
  by_cases h : t.toNat < 2 ^ (w - 1)
  · have heven : 2 * t.toNat % 2 = 0 := by omega
    have hhalf : 2 * t.toNat / 2 = t.toNat := by omega
    rw [if_pos h, if_pos heven, hhalf, Nat.mod_eq_of_lt hlt]
  · have hodd : ¬ (2 * (2 ^ w - 1 - t.toNat) + 1) % 2 = 0 := by omega
    have hhalf : (2 * (2 ^ w - 1 - t.toNat) + 1) / 2 = 2 ^ w - 1 - t.toNat := by omega
    have hsub : 2 ^ 64 - 1 - (2 ^ w - 1 - t.toNat) = t.toNat + 2 ^ w * (q - 1) := by
      have : 2 ^ w * q = 2 ^ w * (q - 1) + 2 ^ w := by
        rw [← Nat.mul_succ]
        congr 1
        omega
      omega
    rw [if_neg h, if_neg hodd, hhalf, hsub, Nat.add_mul_mod_self_left, Nat.mod_eq_of_lt hlt]

/-! ### One varint -/

/-- The 64-bit number that `serialize_varint` writes: zigzag mapped, or converted to
`uint64_t`, which extends the sign. -/
def varintWord (f : VarintForm) (b : Bytes) : ℕ :=
  if f.zigzag then
    if f.size = 4 then (encodeZigzag (BitVec.ofNat 32 (ofLE b))).toNat
    else (encodeZigzag (BitVec.ofNat 64 (ofLE b))).toNat
  else if f.signed then
    if f.size = 4 then ((BitVec.ofNat 32 (ofLE b)).signExtend 64).toNat
    else ofLE b
  else ofLE b

/-- The member that `deserialize_varint` stores for a number. -/
def varintValue (f : VarintForm) (v : ℕ) : Bytes :=
  if f.zigzag then toLE f.size (decodeZigzag (BitVec.ofNat 64 v)).toNat
  else toLE f.size v

/-- `serialize_varint`. -/
def serializeVarint (f : VarintForm) (b : Bytes) : Bytes := varintBytes 9 (varintWord f b)

/-- `calculate_varint_size`. -/
def calculateVarintSize (f : VarintForm) (b : Bytes) : ℕ := varintSize 9 (varintWord f b)

theorem serializeVarint_length (f : VarintForm) (b : Bytes) :
    (serializeVarint f b).length = calculateVarintSize f b := varintBytes_length 9 _

section Word

variable {f : VarintForm} {b : Bytes}

private theorem ofLE_lt_of_length {n : ℕ} (hlen : b.length = n) : ofLE b < 256 ^ n := by
  subst hlen
  exact ofLE_lt b

private theorem signExtend_mod (x : BitVec 32) : (x.signExtend 64).toNat % 2 ^ 32 = x.toNat := by
  rw [BitVec.toNat_signExtend]
  have := x.isLt
  simp only [BitVec.toNat_setWidth]
  split <;> omega

theorem varintWord_lt (hsize : f.size = 4 ∨ f.size = 8) (hlen : b.length = f.size) :
    varintWord f b < 2 ^ 64 := by
  have hb := ofLE_lt_of_length hlen
  have h64 : ofLE b < 2 ^ 64 := by
    rcases hsize with h | h <;> rw [h] at hb
    · exact hb.trans (by decide)
    · exact hb
  rw [varintWord]
  split
  · split
    · exact (BitVec.isLt _).trans (by decide)
    · exact BitVec.isLt _
  · split
    · split
      · exact BitVec.isLt _
      · exact h64
    · exact h64

/-- Reading a written varint back into its type gives the member. -/
theorem varintValue_varintWord (hsize : f.size = 4 ∨ f.size = 8) (hlen : b.length = f.size) :
    varintValue f (varintWord f b) = b := by
  have hb := ofLE_lt_of_length hlen
  have key : ∀ n, n % 256 ^ f.size = ofLE b → toLE f.size n = b := by
    intro n hn
    apply ofLE_injective (by rw [toLE_length, hlen])
    rw [ofLE_toLE_mod, hn]
  rw [varintValue, varintWord]
  rcases hsize with h | h <;> rw [h] at hb
  · have h32 : ofLE b % 2 ^ 32 = ofLE b := Nat.mod_eq_of_lt hb
    split <;> apply key <;> rw [h]
    · have := decodeZigzag_encodeZigzag_mod (by decide) (by decide) (BitVec.ofNat 32 (ofLE b))
      rwa [BitVec.toNat_ofNat, h32] at this
    · split
      · have := signExtend_mod (BitVec.ofNat 32 (ofLE b))
        rwa [BitVec.toNat_ofNat, h32] at this
      · exact Nat.mod_eq_of_lt hb
  · have h64 : ofLE b % 2 ^ 64 = ofLE b := Nat.mod_eq_of_lt hb
    split <;> apply key <;> rw [h]
    · have := decodeZigzag_encodeZigzag_mod (by decide) le_rfl (BitVec.ofNat 64 (ofLE b))
      rwa [BitVec.toNat_ofNat, h64] at this
    · split
      · exact Nat.mod_eq_of_lt hb
      · exact Nat.mod_eq_of_lt hb

end Word

end Yalantinglibs.StructPack
