import Yalantinglibs.Data.VarintGroups
import Yalantinglibs.Iguana.PbPayload
import Yalantinglibs.Iguana.PbReader

/-!
# The varints of struct_pb

`serialize_varint` and `decode_varint` of `iguana/pb_util.hpp`, with their branches: a first byte
without the high bit, the unrolled steps where ten bytes are there, and the loop where they are not.

## Main definitions

* `serializeVarint` — the writer with its stages
* `decodeVarintFast`, `decodeVarintLoop`, `decodeVarintAt` — the reader with its branches
* `WritesBack`, `PathsAgree` — what holds of a number, and of an input

## Main results

* `decodeVarint_eq` — the reader of the other modules
* `codec_iff` — when all of it holds
-/

set_option autoImplicit false

namespace Yalantinglibs.Iguana.Pb

open ByteCodec

/-! ### The writer -/

/-- The third stage of `serialize_varint`: bytes with the high bit as long as there is more. -/
def moreBytes (v : ℕ) : Bytes :=
  UInt8.ofNat (v ||| 0x80) ::
    if 0x80 ≤ v >>> 7 then moreBytes (v >>> 7) else [UInt8.ofNat (v >>> 7)]
termination_by v
decreasing_by
  rename_i h
  rw [Nat.shiftRight_eq_div_pow] at h ⊢
  omega

/-- `serialize_varint`. -/
def serializeVarint (v : ℕ) : Bytes :=
  if v < 0x80 then [UInt8.ofNat v]
  else
    UInt8.ofNat (v ||| 0x80) ::
      if v >>> 7 < 0x80 then [UInt8.ofNat (v >>> 7)] else moreBytes (v >>> 7)

/-! ### The reader -/

/-- The masks and shifts of the unrolled steps. -/
def fastSteps : List (ℕ × ℕ) :=
  [(0x7f, 0), (0x7f, 7), (0x7f, 14), (0x7f, 21), (0x7f, 28), (0x7f, 35), (0x7f, 42), (0x7f, 49),
    (0x7f, 56), (0x01, 63)]

/-- The unrolled steps: `val` is what they have so far, and `pos` where they stand. -/
def decodeVarintFast : List (ℕ × ℕ) → ℕ → ℕ → Bytes → Except Stop (ℕ × ℕ)
  | [], _, _, _ => .error .throws
  | _ :: _, _, _, [] => .error .emptyView
  | (mask, shift) :: steps, val, pos, b :: bs =>
    let val := val ||| (b.toNat &&& mask) <<< shift
    if b.toNat < 128 then .ok (val, pos + 1) else decodeVarintFast steps val (pos + 1) bs

/-- The loop. -/
def decodeVarintLoop (shift val pos : ℕ) : Bytes → Except Stop (ℕ × ℕ)
  | [] => .error .throws
  | b :: bs =>
    if 128 ≤ b.toNat then
      decodeVarintLoop (shift + 7) (val ||| (b.toNat &&& 0x7f) <<< shift % 2 ^ 64) (pos + 1) bs
    else .ok (val ||| b.toNat <<< shift % 2 ^ 64, pos + 1)

/-- `decode_varint`: the number and the position behind it. -/
def decodeVarintAt (data : Bytes) : Except Stop (ℕ × ℕ) :=
  match data with
  | [] => .error .emptyView
  | b :: _ =>
    if b.toNat &&& 0x80 = 0 then .ok (b.toNat, 1)
    else if 10 ≤ data.length then decodeVarintFast fastSteps 0 0 data
    else decodeVarintLoop 0 0 0 data

/-- The number that stands at the front of an input, by its groups. -/
def numberAt (data : Bytes) : Except Stop (ℕ × ℕ) :=
  match varintEnd 10 data with
  | some n => .ok (groups (data.take n) % 2 ^ 64, n)
  | none => .error .throws

/-- What is read of a front, in numbers and positions. -/
def placed (data : Bytes) (pos : ℕ) : VarintRead → Except Stop (ℕ × ℕ)
  | .value n rest => .ok (n, pos + (data.length - rest.length))
  | _ => .error .throws

/-! ### The branches agree -/

section Branches

variable {data : Bytes} {val pos : ℕ}

/-- A byte more in front. -/
theorem placed_cons {b : UInt8} {r : VarintRead}
    (h : ∀ n rest, r = .value n rest → rest.length ≤ data.length) :
    placed data (pos + 1) r = placed (b :: data) pos r := by
  cases r with
  | value n rest =>
    have := h n rest rfl
    rw [placed, placed, List.length_cons]
    congr 2
    omega
  | exhausted => rfl
  | tooLong => rfl

theorem high_bit (b : UInt8) : b.toNat &&& 0x80 = 0 ↔ b.toNat < 128 := by
  have key : ∀ r < 256, r &&& 0x80 = 0 ↔ r < 128 := by decide +kernel
  exact key _ b.toNat_lt

/-- Each unrolled step takes what a round takes; one bit of the tenth byte is left. -/
theorem fastSteps_group {i : ℕ} (hi : i < fastSteps.length) (b : UInt8) :
    (b.toNat &&& fastSteps[i].1) <<< fastSteps[i].2 =
      ((b.toNat &&& 0x7f) <<< (i * 7)) % 2 ^ 64 := by
  have key : ∀ i, ∀ x < 256, (x &&& (fastSteps.get i).1) <<< (fastSteps.get i).2 =
      ((x &&& 0x7f) <<< (i.val * 7)) % 2 ^ 64 := by decide +kernel
  exact key ⟨i, hi⟩ _ b.toNat_lt

/-- The unrolled steps from the one of a byte on, where there are bytes for all of them. -/
theorem decodeVarintFast_drop {k i : ℕ} (hi : i + k = 10) (hlen : k ≤ data.length) :
    decodeVarintFast (fastSteps.drop i) val pos data =
      placed data pos (readVarint k i val data) := by
  induction k generalizing i val pos data with
  | zero =>
    obtain rfl : i = 10 := by omega
    rfl
  | succ k ih =>
    have hlt : i < fastSteps.length := by
      rw [show fastSteps.length = 10 from rfl]
      omega
    cases data with
    | nil => exact absurd hlen (Nat.not_succ_le_zero k)
    | cons b bs =>
      rw [List.drop_eq_getElem_cons hlt, decodeVarintFast, readVarint]
      rw [fastSteps_group hlt]
      by_cases hlast : b.toNat < 128
      · rw [if_pos hlast, if_pos ((high_bit b).mpr hlast), placed, List.length_cons,
          Nat.add_sub_cancel_left]
      · rw [if_neg hlast, if_neg (mt (high_bit b).mp hlast),
          ih (by omega) (Nat.le_of_succ_le_succ hlen)]
        exact placed_cons fun n rest h => (readVarint_length_lt h).le

/-- The unrolled steps read as the reader of other modules does. -/
theorem decodeVarintFast_eq (hlen : 10 ≤ data.length) :
    decodeVarintFast fastSteps 0 0 data = placed data 0 (readVarint 10 0 0 data) :=
  decodeVarintFast_drop (Nat.zero_add 10) hlen

/-- The loop from some byte on, where the input ends before the tenth. -/
theorem decodeVarintLoop_aux {k i : ℕ} (hlen : data.length < k) :
    decodeVarintLoop (i * 7) val pos data = placed data pos (readVarint k i val data) := by
  induction data generalizing k i val pos with
  | nil =>
    obtain ⟨k, rfl⟩ : ∃ j, k = j + 1 := ⟨k - 1, by simp only [List.length_nil] at hlen; omega⟩
    rfl
  | cons b bs ih =>
    rw [List.length_cons] at hlen
    obtain ⟨k, rfl⟩ : ∃ j, k = j + 1 := ⟨k - 1, by omega⟩
    have hlow : b.toNat &&& 0x7f = b.toNat % 128 := Nat.and_two_pow_sub_one_eq_mod _ 7
    rw [decodeVarintLoop, readVarint]
    by_cases hmore : 128 ≤ b.toNat
    · have hbit : ¬ b.toNat &&& 0x80 = 0 := by
        rw [high_bit]
        omega
      rw [if_pos hmore, if_neg hbit, ← Nat.succ_mul, ih (Nat.lt_of_succ_lt_succ hlen)]
      exact placed_cons fun n rest h => (readVarint_length_lt h).le
    · -- the last byte is taken as it is
      have hlast : b.toNat < 128 := by omega
      rw [if_neg hmore, if_pos ((high_bit b).mpr hlast), hlow, Nat.mod_eq_of_lt hlast, placed,
        List.length_cons, Nat.add_sub_cancel_left]

theorem decodeVarintLoop_eq (hlen : data.length < 10) :
    decodeVarintLoop 0 0 0 data = placed data 0 (readVarint 10 0 0 data) := by
  have : decodeVarintLoop (0 * 7) 0 0 data = placed data 0 (readVarint 10 0 0 data) :=
    decodeVarintLoop_aux hlen
  simpa only [Nat.zero_mul] using this

/-- What the reader of other modules reads is the number that stands there. -/
theorem placed_readVarint : placed data 0 (readVarint 10 0 0 data) = numberAt data := by
  rw [readVarint_eq le_rfl, numberAt]
  cases hend : varintEnd 10 data with
  | none =>
    dsimp only
    split <;> rfl
  | some n =>
    have := (varintEnd_bounds hend).2.2
    dsimp only
    rw [placed, List.length_drop]
    congr 2
    omega

/-- An input that is not empty has one number, or none, in any of the branches. -/
theorem decodeVarintAt_eq (h : data ≠ []) : decodeVarintAt data = numberAt data := by
  cases data with
  | nil => exact absurd rfl h
  | cons b bs =>
    rw [decodeVarintAt]
    split_ifs with hfirst hten
    · have hlast := (high_bit b).mp hfirst
      have hb : b.toNat % 128 % 2 ^ 64 = b.toNat := by omega
      rw [numberAt, varintEnd, if_pos hlast]
      simp only [List.take_succ_cons, List.take_zero, groups, Nat.mul_zero, Nat.add_zero, hb]
    · rw [decodeVarintFast_eq hten, placed_readVarint]
    · rw [decodeVarintLoop_eq (by omega), placed_readVarint]

/-- The reader of the other modules, which has the bytes behind the number. -/
theorem decodeVarint_eq : decodeVarint data =
    match decodeVarintAt data with
    | .ok (n, pos) => .ok (n, data.drop pos)
    | .error e => .error e := by
  by_cases hnil : data = []
  · rw [decodeVarint, if_pos hnil, hnil]
    rfl
  rw [decodeVarint, if_neg hnil, decodeVarintAt_eq hnil, numberAt, readVarint_eq le_rfl]
  cases varintEnd 10 data with
  | some n => rfl
  | none =>
    dsimp only
    by_cases hlen : data.length < 10
    · rw [if_pos hlen]
    · rw [if_neg hlen]

/-- What follows a number does not matter. -/
theorem numberAt_append {n : ℕ × ℕ} (h : numberAt data = .ok n) (s : Bytes) :
    numberAt (data ++ s) = .ok n := by
  rw [numberAt] at h ⊢
  cases hend : varintEnd 10 data with
  | none =>
    rw [hend] at h
    cases h
  | some m =>
    rw [hend] at h
    rw [varintEnd_append hend s, ← h]
    dsimp only
    rw [List.take_append_of_le_length (varintEnd_bounds hend).2.2]

end Branches

/-! ### The writer and the sizes -/

/-- The third stage goes on as a varint does. -/
theorem moreBytes_eq {k v : ℕ} (hv : v < 2 ^ (7 * (k + 2))) (h : 0x80 ≤ v) :
    moreBytes v = varintBytes (k + 1) v := by
  induction k generalizing v with
  | zero =>
    have hshift : v >>> 7 < 0x80 := by
      rw [Nat.shiftRight_eq_div_pow]
      omega
    rw [moreBytes, varintBytes, if_neg (Nat.not_le.mpr hshift), if_neg (Nat.not_lt.mpr h)]
    rfl
  | succ k ih =>
    have hshift : v >>> 7 < 2 ^ (7 * (k + 2)) := by
      rw [Nat.shiftRight_eq_div_pow, Nat.div_lt_iff_lt_mul (by decide), ← pow_add]
      exact hv.trans_le (Nat.pow_le_pow_right (by decide) (by omega))
    rw [moreBytes, varintBytes, if_neg (Nat.not_lt.mpr h)]
    congr 1
    by_cases hmore : 0x80 ≤ v >>> 7
    · rw [if_pos hmore, ih hshift hmore]
    · rw [if_neg hmore, varintBytes, if_pos (by omega)]

/-- The stages write one varint. -/
theorem serializeVarint_eq {v : ℕ} (hv : v < 2 ^ 64) : serializeVarint v = varintBytes 9 v := by
  rw [serializeVarint, varintBytes]
  by_cases hone : v < 0x80
  · rw [if_pos hone, if_pos hone]
  · rw [if_neg hone, if_neg hone, varintBytes]
    congr 1
    by_cases htwo : v >>> 7 < 0x80
    · rw [if_pos htwo, if_pos htwo]
    · have hshift : v >>> 7 < 2 ^ (7 * (7 + 2)) := by
        rw [Nat.shiftRight_eq_div_pow]
        omega
      rw [if_neg htwo, moreBytes_eq hshift (by omega)]
      rw [varintBytes, if_neg htwo]

/-- What is written is read again, and nothing behind it. -/
theorem decodeVarintAt_serializeVarint (v : BitVec 64) (s : Bytes) :
    decodeVarintAt (serializeVarint v.toNat ++ s) = .ok (v.toNat, varintSize 9 v.toNat) := by
  have hlen := varintBytes_length 9 v.toNat
  have hne : varintBytes 9 v.toNat ++ s ≠ [] := by simp [varintBytes_ne_nil]
  rw [serializeVarint_eq v.isLt, decodeVarintAt_eq hne, ← placed_readVarint,
    readVarint_varintBytes v.isLt, placed, List.length_append, hlen]
  congr 2
  omega

theorem varintSize_le_ten (v : BitVec 64) : varintSize 9 v.toNat ≤ 10 := by
  have hlog : Nat.log 2 v.toNat < 64 := Nat.log_lt_of_lt_pow' (by decide) v.isLt
  rw [varintSize_eq_log (v.isLt.trans (by decide))]
  omega

/-- A size in the type it is computed in. -/
theorem toNat_varintSize (v : BitVec 64) :
    (BitVec.ofNat 64 (varintSize 9 v.toNat)).toNat = varintSize 9 v.toNat := by
  have hle := varintSize_le_ten v
  rw [BitVec.toNat_ofNat, Nat.mod_eq_of_lt (by omega)]

theorem toNat_variantUint64Size (v : BitVec 64) :
    (variantUint64Size v).toNat = varintSize 9 v.toNat := by
  rw [variantUint64Size_eq, toNat_varintSize]

/-- The computation with a multiplication is a division by seven. -/
theorem variantUint64Size_log2 (v : BitVec 64) :
    (variantUint64Size v).toNat = (v.toNat ||| 1).log2 / 7 + 1 := by
  have hlt : (v.toNat ||| 1).log2 < 64 := by
    have hne : v.toNat ||| 1 ≠ 0 := (Nat.one_pos.trans_le Nat.right_le_or).ne'
    rw [Nat.log2_lt hne]
    exact Nat.or_lt_two_pow v.isLt (by decide)
  have hdiv : ∀ l < 64, (l * 9 + 73) / 64 = l / 7 + 1 := by decide
  rw [toNat_variantUint64Size, ← log2_or_one v.isLt, hdiv _ hlt]

/-- A negative number takes ten bytes. -/
theorem variantIntergalSize_neg {w : Width} {u : BitVec 64} (hu : extend w.bits true u = u)
    (hneg : u.msb = true) : variantIntergalSize w true u = 10 := by
  have hle : 2 ^ 63 ≤ u.toNat := by
    rwa [BitVec.msb_eq_decide, decide_eq_true_eq] at hneg
  have hlog : Nat.log 2 u.toNat = 63 := Nat.log_eq_of_pow_le_of_lt_pow hle u.isLt
  rw [variantIntergalSize_eq hu, varintSize_eq_log (u.isLt.trans (by decide)), hlog]
  rfl

/-! ### The codec -/

/-- A number in front of any bytes. -/
structure WritesBack (v : BitVec 64) (s : Bytes) : Prop where
  /-- it is read again, and the position is its size -/
  size64 : decodeVarintAt (serializeVarint v.toNat ++ s) =
    .ok (v.toNat, (variantUint64Size v).toNat)
  /-- the size of a number of 32 bits -/
  size32 : v.toNat < 2 ^ 32 → decodeVarintAt (serializeVarint v.toNat ++ s) =
    .ok (v.toNat, (variantUint32Size (v.setWidth 32)).toNat)
  /-- the size of a number of an integral type -/
  integral : ∀ (w : Width) (signed : Bool), extend w.bits signed v = v →
    decodeVarintAt (serializeVarint v.toNat ++ s) =
      .ok (v.toNat, (variantIntergalSize w signed v).toNat)
  /-- the size of a negative one -/
  negative : ∀ w : Width, extend w.bits true v = v → v.msb = true →
    variantIntergalSize w true v = 10
  /-- the size without the multiplication -/
  formula : (variantUint64Size v).toNat = (v.toNat ||| 1).log2 / 7 + 1

/-- An input has one number, or none, whichever branch it is read in. -/
structure PathsAgree (data : Bytes) : Prop where
  /-- the unrolled steps -/
  fast : 10 ≤ data.length → decodeVarintFast fastSteps 0 0 data = numberAt data
  /-- the loop -/
  loop : data.length < 10 → decodeVarintLoop 0 0 0 data = numberAt data
  /-- the whole -/
  whole : decodeVarintAt data = numberAt data
  /-- what the loop has read, the unrolled steps read when more bytes follow -/
  follow : ∀ (n : ℕ × ℕ) (s : Bytes), decodeVarintAt data = .ok n →
    decodeVarintAt (data ++ s) = .ok n
  /-- what is rejected -/
  rejects : decodeVarintAt data = .error .throws ↔ ∀ b ∈ data.take 10, 128 ≤ b.toNat

theorem writesBack (v : BitVec 64) (s : Bytes) : WritesBack v s where
  size64 := by rw [decodeVarintAt_serializeVarint, toNat_variantUint64Size]
  size32 h := by
    have hv : (v.setWidth 32).toNat = v.toNat := by
      rw [BitVec.toNat_setWidth, Nat.mod_eq_of_lt h]
    rw [decodeVarintAt_serializeVarint, variantUint32Size_eq, hv, toNat_varintSize]
  integral w signed h := by
    rw [decodeVarintAt_serializeVarint, variantIntergalSize_eq h, toNat_varintSize]
  negative _ h hneg := variantIntergalSize_neg h hneg
  formula := variantUint64Size_log2 v

theorem numberAt_error_iff {data : Bytes} :
    numberAt data = .error .throws ↔ ∀ b ∈ data.take 10, 128 ≤ b.toNat := by
  rw [← varintEnd_eq_none_iff, numberAt]
  cases varintEnd 10 data with
  | none => exact iff_of_true rfl rfl
  | some n => exact iff_of_false (fun h => nomatch h) fun h => nomatch h

/-- The branches agree on every input that has a byte. -/
theorem PathsAgree.of_ne_nil {data : Bytes} (h : data ≠ []) : PathsAgree data where
  fast hlen := by rw [decodeVarintFast_eq hlen, placed_readVarint]
  loop hlen := by rw [decodeVarintLoop_eq hlen, placed_readVarint]
  whole := decodeVarintAt_eq h
  follow n s hn := by
    rw [decodeVarintAt_eq h] at hn
    rw [decodeVarintAt_eq (by simp [h]), numberAt_append hn s]
  rejects := by rw [decodeVarintAt_eq h, numberAt_error_iff]

/-- Numbers are written and read back, and the branches of the reader agree on every input but the
empty one, of which the first byte is looked at nevertheless. -/
theorem codec_iff (data : Bytes) :
    ((∀ (v : BitVec 64) (s : Bytes), WritesBack v s) ∧ PathsAgree data) ↔ data ≠ [] := by
  constructor
  · rintro ⟨-, h⟩ rfl
    exact nomatch h.whole
  · exact fun h => ⟨writesBack, .of_ne_nil h⟩

/-- A message that ends behind a key: the number is looked for where the view ends. -/
theorem not_codec : ¬ ∀ data : Bytes, PathsAgree data := by
  intro h
  exact nomatch (h []).whole

end Yalantinglibs.Iguana.Pb
