import Yalantinglibs.Iguana.PbWriter
import Mathlib.Data.Nat.Log

/-!
# What a value is on the wire

The fields that stand for a value, each without its key: a number, a text, a message and packed
items are one field, unpacked items and the entries of a map are one each, and what is omitted is
none. The passes of the writer are measured against this, and the reader is.

## Main definitions

* `payloads` — the fields of a value
* `membersBytes` — the fields of a message, with their keys
* `SizeKept` — a size that the first pass, which looks at 32 bits of it, takes for what it is

## Main results

* `Num.size_eq`, `variantUint32Size_eq` — the sizes of numbers
-/

set_option autoImplicit false

namespace Yalantinglibs.Iguana.Pb

open ByteCodec

/-! ### Fields -/

/-- A size in front of what has it. -/
def delimit (b : Bytes) : Bytes := varintBytes 9 b.length ++ b

/-- Fields with a key. -/
def tagged (key : ℕ) (ps : List Bytes) : Bytes := ps.flatMap fun p => serializeVarintU32 key ++ p

mutual

/-- The fields that stand for a value. -/
def payloads (S : Schema) : Val → Ty → Bool → List Bytes
  | .num u, .num k, omitDefaultVal => if omitDefaultVal && k.isZero u then [] else [k.bytes u]
  | .str s, .string, omitDefaultVal => if omitDefaultVal && s.isEmpty then [] else [delimit s]
  | .list vs, .message id, _ => [delimit (membersBytes S vs (S.message id).members)]
  | .list vs, .sequence t, _ =>
    if t.isLenprefixed then itemsPayloads S vs t
    else if vs.isEmpty then [] else [delimit (packedBytes t vs)]
  | .list es, .map k m, _ => entriesPayloads S es k m
  | .some v, .optional t, omitDefaultVal => payloads S v t omitDefaultVal
  | _, _, _ => []

/-- Those of the items of a sequence. -/
def itemsPayloads (S : Schema) : List Val → Ty → List Bytes
  | [], _ => []
  | v :: vs, t => payloads S v t false ++ itemsPayloads S vs t

/-- Those of the entries of a map. -/
def entriesPayloads (S : Schema) : List Val → Ty → Ty → List Bytes
  | .pair x y :: es, k, m =>
    delimit (tagged (keyOf 1 k) (payloads S x k false) ++
      tagged (keyOf 2 m) (payloads S y m false)) :: entriesPayloads S es k m
  | _, _, _ => []

/-- The fields of a message. -/
def membersBytes (S : Schema) : List Val → List Member → Bytes
  | v :: vs, m :: ms =>
    (match m.ty, v with
    | .plain t, v => tagged (keyOf m.fieldNo t) (payloads S v t true)
    | .oneof ts, .alt a v =>
      match ts[a]? with
      | some t => tagged (keyOf (m.fieldNo + a) t) (payloads S v t false)
      | none => []
    | .oneof _, _ => []) ++ membersBytes S vs ms
  | _, _ => []

end

namespace Field

variable (S : Schema) (f : Field)

/-- The key of a field. -/
def key : ℕ := keyOf f.fieldNo f.ty

/-- Without its key. -/
def payloads : List Bytes := Pb.payloads S f.val f.ty f.omitDefaultVal

def bytes : Bytes := tagged f.key (f.payloads S)

/-- The size in the first pass. -/
def size : Sizes :=
  let size := pbKeyValueSize S f.val f.ty (variantUint32SizeConstexpr f.key) f.omitDefaultVal
  if f.omitDefaultVal then size else oneofSize size

/-- What the second pass writes. -/
def write : Writes := toPbImpl S f.val f.ty f.key f.omitDefaultVal

end Field

section Members

variable {S : Schema} (v : Val) (vs : List Val) (m : Member) (ms : List Member)

theorem membersBytes_cons :
    membersBytes S (v :: vs) (m :: ms) =
      ((m.field v).map (Field.bytes S)).getD [] ++ membersBytes S vs ms := by
  obtain ⟨n, ty⟩ := m
  cases ty with
  | plain t => rw [membersBytes.eq_def]; rfl
  | oneof ts =>
    cases v with
    | alt a v =>
      rw [membersBytes.eq_def]
      cases hts : ts[a]? <;> simp [Member.field, hts, Field.bytes, Field.key, Field.payloads]
    | _ => rw [membersBytes.eq_def]; rfl

theorem membersSize_cons :
    membersSize S (v :: vs) (m :: ms) =
      (((m.field v).map (Field.size S)).getD (0, [])).add (membersSize S vs ms) := by
  obtain ⟨n, ty⟩ := m
  cases ty with
  | plain t => rw [membersSize.eq_def]; rfl
  | oneof ts =>
    cases v with
    | alt a v =>
      rw [membersSize.eq_def]
      cases hts : ts[a]? <;> simp [Member.field, hts, Field.size, Field.key]
    | _ => rw [membersSize.eq_def]; rfl

theorem toPbMembers_cons :
    toPbMembers S (v :: vs) (m :: ms) =
      (((m.field v).map (Field.write S)).getD Writes.done).andThen (toPbMembers S vs ms) := by
  obtain ⟨n, ty⟩ := m
  cases ty with
  | plain t => rw [toPbMembers.eq_def]; rfl
  | oneof ts =>
    cases v with
    | alt a v =>
      rw [toPbMembers.eq_def]
      cases hts : ts[a]? <;> simp [Member.field, hts, Field.write, Field.key]
    | _ => rw [toPbMembers.eq_def]; rfl

end Members

theorem code_lt (w : WireType) : w.code < 8 := by
  cases w <;> decide

theorem keyOf_eq (n : ℕ) (t : Ty) : keyOf n t = n * 8 + t.getWireType.code := by
  rw [keyOf, ← Nat.shiftLeft_add_eq_or_of_lt (code_lt _), Nat.shiftLeft_eq]

theorem keyOf_ne_zero {n : ℕ} (hn : n ≠ 0) (t : Ty) : keyOf n t ≠ 0 := by
  rw [keyOf_eq]
  omega

/-- A key below 128 is one byte. -/
theorem constexpr_of_lt {key : ℕ} (h : key < 128) : variantUint32SizeConstexpr key = 1 := by
  rcases Nat.eq_zero_or_pos key with rfl | hpos
  · rfl
  · have hlog : key.log2 < 7 := (Nat.log2_lt hpos.ne').mpr h
    rw [variantUint32SizeConstexpr, Nat.div_eq_of_lt hlog]

/-- The keys in an entry of a map. -/
theorem constexpr_entry {n : ℕ} (hn : n ≤ 2) (t : Ty) :
    variantUint32SizeConstexpr (keyOf n t) = 1 := by
  apply constexpr_of_lt
  have := code_lt t.getWireType
  rw [keyOf_eq]
  omega

@[simp] theorem tagged_nil (key : ℕ) : tagged key [] = [] := rfl

@[simp] theorem tagged_append (key : ℕ) (ps qs : List Bytes) :
    tagged key (ps ++ qs) = tagged key ps ++ tagged key qs :=
  List.flatMap_append

theorem tagged_cons (key : ℕ) (p : Bytes) (ps : List Bytes) :
    tagged key (p :: ps) = serializeVarintU32 key ++ p ++ tagged key ps := rfl

/-- A value that is not omitted is written in the same way. -/
theorem payloads_omitDefaultVal {S : Schema} {v : Val} {t : Ty}
    (h : payloads S v t true ≠ []) : payloads S v t true = payloads S v t false := by
  induction t generalizing v with
  | num k =>
    cases v with
    | num u =>
      simp only [payloads, Bool.true_and, Bool.false_and, Bool.false_eq_true, if_false] at h ⊢
      split_ifs at h ⊢ with hzero
      · exact absurd rfl h
      · rfl
    | _ => rfl
  | string =>
    cases v with
    | str s =>
      simp only [payloads, Bool.true_and, Bool.false_and, Bool.false_eq_true, if_false] at h ⊢
      split_ifs at h ⊢ with hempty
      · exact absurd rfl h
      · rfl
    | _ => rfl
  | optional t ih =>
    cases v with
    | some v =>
      rw [payloads] at h ⊢
      rw [payloads]
      exact ih h
    | _ => rfl
  | _ => cases v <;> rfl

/-! ### The sizes of numbers -/

/-- The number of groups of seven bits. -/
theorem varintSize_eq_log {k n : ℕ} (h : n < 2 ^ (7 * (k + 1))) :
    varintSize k n = Nat.log 2 n / 7 + 1 := by
  induction k generalizing n with
  | zero =>
    have hlog : Nat.log 2 n < 7 := Nat.log_lt_of_lt_pow' (by decide) h
    rw [varintSize, Nat.div_eq_of_lt hlog]
  | succ k ih =>
    have hshift : n >>> 7 = n / 2 ^ 7 := Nat.shiftRight_eq_div_pow n 7
    have hlog : Nat.log 2 (n / 2 ^ 7) = Nat.log 2 n - 7 := by
      have hhalves : n / 2 ^ 7 = n / 2 / 2 / 2 / 2 / 2 / 2 / 2 := by omega
      rw [hhalves]
      simp only [Nat.log_div_base]
      omega
    rw [varintSize, hshift]
    split_ifs with hsmall
    · have hlt : n < 2 ^ 7 := by
        rcases Nat.div_eq_zero_iff.mp hsmall with h0 | hlt
        · exact absurd h0 (by decide)
        · exact hlt
      rw [Nat.div_eq_of_lt (Nat.log_lt_of_lt_pow' (by decide) hlt)]
    · have hle : 2 ^ 7 ≤ n := by
        by_contra hlt
        exact hsmall (Nat.div_eq_of_lt (Nat.lt_of_not_le hlt))
      have hlog7 : 7 ≤ Nat.log 2 n := Nat.le_log_of_pow_le (by decide) hle
      have hdiv : n / 2 ^ 7 < 2 ^ (7 * (k + 1)) := by
        rw [Nat.div_lt_iff_lt_mul (by decide), ← pow_add]
        exact h.trans_le (Nat.pow_le_pow_right (by decide) (by omega))
      rw [ih hdiv, hlog]
      omega

/-- A larger number does not take fewer bytes. -/
theorem varintSize_mono (k : ℕ) {m n : ℕ} (h : m ≤ n) : varintSize k m ≤ varintSize k n := by
  induction k generalizing m n with
  | zero => exact le_rfl
  | succ k ih =>
    have hshift : m >>> 7 ≤ n >>> 7 := by
      rw [Nat.shiftRight_eq_div_pow, Nat.shiftRight_eq_div_pow]
      exact Nat.div_le_div_right h
    rw [varintSize, varintSize]
    split_ifs with hm hn
    · exact le_rfl
    · exact Nat.le_add_right _ _
    · omega
    · exact Nat.add_le_add_left (ih hshift) 1

theorem varintSize_le (k n : ℕ) : varintSize k n ≤ k + 1 := by
  induction k generalizing n with
  | zero => exact le_rfl
  | succ k ih =>
    rw [varintSize]
    split_ifs
    · omega
    · have := ih (n >>> 7)
      omega

/-- The computation with a multiplication is right for numbers of 64 bits. -/
theorem log2_or_one {n : ℕ} (h : n < 2 ^ 64) :
    ((n ||| 1).log2 * 9 + 73) / 64 = varintSize 9 n := by
  have hor : (n ||| 1).log2 = Nat.log 2 n := by
    rcases Nat.eq_zero_or_pos n with rfl | hpos
    · rfl
    · have hlt : n ||| 1 < 2 ^ (n.log2 + 1) :=
        Nat.or_lt_two_pow Nat.lt_log2_self (Nat.one_lt_two_pow (Nat.succ_ne_zero _))
      have hne : n ||| 1 ≠ 0 := (hpos.trans_le Nat.left_le_or).ne'
      rw [← Nat.log2_eq_log_two, Nat.log2_eq_iff hne]
      exact ⟨(Nat.log2_self_le hpos.ne').trans Nat.left_le_or, hlt⟩
  have hlog : Nat.log 2 n < 64 := Nat.log_lt_of_lt_pow' (by decide) h
  have hdiv : ∀ l < 64, (l * 9 + 73) / 64 = l / 7 + 1 := by decide
  rw [hor, hdiv _ hlog, varintSize_eq_log (h.trans (by decide))]

/-- A size that is taken for what it is when 32 bits of it are looked at. -/
def SizeKept (n : ℕ) : Prop := varintSize 9 (n % 2 ^ 32) = varintSize 9 n

theorem SizeKept.of_lt {n : ℕ} (h : n < 2 ^ 32) : SizeKept n := by
  rw [SizeKept, Nat.mod_eq_of_lt h]

/-- Such a size takes five bytes at most. -/
theorem SizeKept.lt {n : ℕ} (h : SizeKept n) : n < 2 ^ 35 := by
  have hlow : varintSize 9 (n % 2 ^ 32) ≤ 5 := by
    have hlt : n % 2 ^ 32 < 2 ^ 32 := Nat.mod_lt _ (by decide)
    have hlog : Nat.log 2 (n % 2 ^ 32) < 32 := Nat.log_lt_of_lt_pow' (by decide) hlt
    rw [varintSize_eq_log (hlt.trans (by decide))]
    omega
  have hgroups : ∀ {k j n : ℕ}, 2 ^ (7 * j) ≤ n → j ≤ k → j + 1 ≤ varintSize k n := by
    intro k
    induction k with
    | zero =>
      intro j n _ hj
      rw [varintSize]
      omega
    | succ k ih =>
      intro j n hn hj
      cases j with
      | zero =>
        rw [varintSize]
        split_ifs <;> omega
      | succ j =>
        have hdiv : 2 ^ (7 * j) ≤ n >>> 7 := by
          rw [Nat.shiftRight_eq_div_pow, Nat.le_div_iff_mul_le (by decide), ← pow_add]
          exact hn
        have hpos : n >>> 7 ≠ 0 := (Nat.two_pow_pos _).trans_le hdiv |>.ne'
        rw [varintSize, if_neg hpos]
        have := ih hdiv (Nat.le_of_succ_le_succ hj)
        omega
  by_contra hle
  have hhigh : 6 ≤ varintSize 9 n := hgroups (Nat.le_of_not_lt hle) (by decide)
  rw [← h] at hhigh
  omega

theorem variantUint32Size_eq (n : BitVec 32) :
    variantUint32Size n = BitVec.ofNat 64 (varintSize 9 n.toNat) := by
  rw [variantUint32Size, log2_or_one (n.isLt.trans (by decide))]

theorem variantUint64Size_eq (n : BitVec 64) :
    variantUint64Size n = BitVec.ofNat 64 (varintSize 9 n.toNat) := by
  rw [variantUint64Size, log2_or_one n.isLt]

/-- A size and what has it, in the first pass. -/
theorem lenSize_eq {n : ℕ} (h : SizeKept n) :
    lenSize (BitVec.ofNat 64 n) = BitVec.ofNat 64 (varintSize 9 n + n) := by
  have hn : ((BitVec.ofNat 64 n).setWidth 32).toNat = n % 2 ^ 32 := by
    rw [BitVec.toNat_setWidth, BitVec.toNat_ofNat, Nat.mod_mod_of_dvd _ (by decide)]
  rw [lenSize, variantUint32Size_eq, hn, h, BitVec.ofNat_add]

theorem delimit_length (b : Bytes) : (delimit b).length = varintSize 9 b.length + b.length := by
  rw [delimit, List.length_append, varintBytes_length]

theorem serializeVarintU32_length (key : ℕ) :
    (serializeVarintU32 key).length = variantUint32SizeConstexpr key := by
  rw [serializeVarintU32, List.length_map, List.length_range]

/-- A value that is not negative fits in the bits of its type. -/
theorem extend_toNat_lt {w : ℕ} {signed : Bool} {u : BitVec 64} (hw : 0 < w) (hw' : w ≤ 64)
    (hu : extend w signed u = u) (hpos : (signed && u.msb) = false) : u.toNat < 2 ^ w := by
  have hplain : (u.setWidth w).setWidth 64 = u → u.toNat < 2 ^ w := by
    intro h
    have hlt := (u.setWidth w).isLt
    rw [← h, BitVec.toNat_setWidth]
    exact (Nat.mod_le _ _).trans_lt hlt
  cases signed with
  | false => exact hplain hu
  | true =>
    have hmsb : (u.setWidth w).msb = false := by
      have hext : ((u.setWidth w).signExtend 64).msb = false := by
        rw [extend, if_pos rfl] at hu
        rw [hu]
        exact hpos
      rw [BitVec.msb_signExtend] at hext
      split_ifs at hext with hlt
      · obtain rfl : w = 64 := by omega
        simpa [BitVec.msb] using hext
      · simpa using hext
    rw [extend, if_pos rfl, BitVec.signExtend_eq_setWidth_of_msb_false hmsb] at hu
    exact hplain hu

theorem variantIntergalSize_eq {w : Width} {signed : Bool} {u : BitVec 64}
    (hu : extend w.bits signed u = u) :
    variantIntergalSize w signed u = BitVec.ofNat 64 (varintSize 9 u.toNat) := by
  rw [variantIntergalSize]
  split_ifs with hw hneg
  · exact variantUint64Size_eq u
  · have hle : 2 ^ 63 ≤ u.toNat := by
      simp only [Bool.and_eq_true, BitVec.msb_eq_decide, decide_eq_true_eq] at hneg
      exact hneg.2
    have hlog : Nat.log 2 u.toNat = 63 :=
      Nat.log_eq_of_pow_le_of_lt_pow hle u.isLt
    rw [varintSize_eq_log (u.isLt.trans (by decide)), hlog]
    rfl
  · have hbits : 0 < w.bits ∧ w.bits ≤ 32 := by
      cases w with
      | w64 => exact absurd rfl hw
      | _ => decide
    have hlt : u.toNat < 2 ^ 32 :=
      (extend_toNat_lt hbits.1 (by omega) hu (Bool.eq_false_iff.mpr hneg)).trans_le
        (Nat.pow_le_pow_right (by decide) hbits.2)
    rw [variantUint32Size_eq, BitVec.toNat_setWidth, Nat.mod_eq_of_lt hlt]

theorem Num.bytes_of_varint {k : Num} {u : BitVec 64} (h : k.wireType = .varint) :
    k.bytes u = varintBytes 9 (k.word u) := by
  rw [bytes, h]

theorem Num.bytes_of_fixed {k : Num} {u : BitVec 64} (h : k.wireType ≠ .varint) :
    k.bytes u = toLE k.width u.toNat := by
  rw [bytes]
  cases hwire : k.wireType with
  | varint => exact absurd hwire h
  | _ => rfl

/-- The size of a number is what its bytes are. -/
theorem Num.size_eq {k : Num} {u : BitVec 64} (hu : k.cast u = u) :
    k.size u = BitVec.ofNat 64 (k.bytes u).length := by
  cases k with
  | bool =>
    have hbit : u = 0 ∨ u = 1 := by
      rw [cast] at hu
      split_ifs at hu with h
      · exact .inl h
      · exact .inr hu.symm
    rcases hbit with rfl | rfl <;> rfl
  | integral w signed =>
    rw [bytes_of_varint rfl, varintBytes_length]
    exact variantIntergalSize_eq hu
  | enumeration w signed =>
    rw [bytes_of_varint rfl, varintBytes_length]
    exact variantIntergalSize_eq hu
  | sint32 =>
    rw [bytes_of_varint rfl, varintBytes_length]
    exact variantUint32Size_eq _
  | sint64 =>
    rw [bytes_of_varint rfl, varintBytes_length]
    exact variantUint64Size_eq _
  | _ =>
    rw [bytes_of_fixed (by decide), toLE_length]
    rfl

theorem Num.bytes_ne_nil (k : Num) (u : BitVec 64) : k.bytes u ≠ [] := by
  by_cases hwire : k.wireType = .varint
  · rw [bytes_of_varint hwire]
    exact varintBytes_ne_nil _ _
  · rw [bytes_of_fixed hwire, ← List.length_pos_iff, toLE_length]
    cases k <;> simp [width]

theorem Num.bytes_length_le (k : Num) (u : BitVec 64) : (k.bytes u).length ≤ 10 := by
  by_cases hwire : k.wireType = .varint
  · rw [Num.bytes_of_varint hwire, varintBytes_length]
    exact varintSize_le 9 _
  · rw [Num.bytes_of_fixed hwire, toLE_length]
    cases k <;> simp [Num.width]

@[simp] theorem packedBytes_cons (k : Num) (u : BitVec 64) (vs : List Val) :
    packedBytes (.num k) (.num u :: vs) = k.bytes u ++ packedBytes (.num k) vs := rfl

@[simp] theorem packedSize_cons (k : Num) (u : BitVec 64) (vs : List Val) :
    packedSize (.num k) (.num u :: vs) = numericSize 0 false k u + packedSize (.num k) vs := by
  rw [packedSize, List.map_cons, List.sum_cons]
  rfl

end Yalantinglibs.Iguana.Pb
