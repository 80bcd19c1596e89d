import Yalantinglibs.Data.VarintGroups
import Yalantinglibs.StructPack.Unpacker

/-!
# The varint codec

`serialize_varint` and `deserialize_varint` of `varint.hpp`, for every integer and every input. What
is read is a 64-bit number, and the member takes what of it its type has room for.

## Main definitions

* `Fits` — a number is that of a member
* `CodecSpec` — what holds of the codec of a form

## Main results

* `codecSpec` — it holds
-/

set_option autoImplicit false

namespace Yalantinglibs.StructPack

open ByteCodec Decoding

/-- The number of an encoding is the one that is written for a member. -/
def Fits (f : VarintForm) (n : ℕ) : Prop := ∃ b : Bytes, b.length = f.size ∧ varintWord f b = n

/-- Every encoding that is accepted stands for a member of its type. -/
def RejectsUnfit (f : VarintForm) : Prop :=
  ∀ (item x : Val) (bs rest : Bytes), TypeEnv.deserializeVarint true f item bs = .done x rest →
    Fits f (groups (bs.take (bs.length - rest.length)))

/-- The codec of a form. -/
structure CodecSpec (f : VarintForm) : Prop where
  /-- what is written is read again, and nothing behind it -/
  roundTrip : ∀ (item : Val) (b s : Bytes), b.length = f.size →
    TypeEnv.deserializeVarint true f item (serializeVarint f b ++ s) = .done (.bytes b) s ∧
      (serializeVarint f b).length = calculateVarintSize f b
  /-- no more than ten bytes are read -/
  atMostTen : ∀ (item : Val) (bs : Bytes),
    (TypeEnv.deserializeVarint true f item bs).Ends fun rest => ∃ n ≤ 10, rest = bs.drop n
  /-- an encoding of at most ten bytes is accepted, and the member has the low bits of its number -/
  done_iff : ∀ (item x : Val) (bs rest : Bytes),
    TypeEnv.deserializeVarint true f item bs = .done x rest ↔
      ∃ n, varintEnd 10 bs = some n ∧ rest = bs.drop n ∧
        x = .bytes (varintValue f (groups (bs.take n) % 2 ^ 64))
  /-- an input that ends too early -/
  noBufferSpace_iff : ∀ (item x : Val) (bs rest : Bytes),
    TypeEnv.deserializeVarint true f item bs = .fail .noBufferSpace x rest ↔
      (bs.length < 10 ∧ ∀ b ∈ bs.take 10, 128 ≤ b.toNat) ∧ x = item ∧ rest = []
  /-- an encoding that does not end within ten bytes -/
  invalidBuffer_iff : ∀ (item x : Val) (bs rest : Bytes),
    TypeEnv.deserializeVarint true f item bs = .fail .invalidBuffer x rest ↔
      (10 ≤ bs.length ∧ ∀ b ∈ bs.take 10, 128 ≤ b.toNat) ∧ x = item ∧ rest = bs.drop 10

variable {f : VarintForm} {item : Val} {bs : Bytes}

/-- The decoder by where the encoding ends. -/
theorem deserializeVarint_eq : TypeEnv.deserializeVarint true f item bs =
    match varintEnd 10 bs with
    | some n => .done (.bytes (varintValue f (groups (bs.take n) % 2 ^ 64))) (bs.drop n)
    | none => if bs.length < 10 then .fail .noBufferSpace item []
      else .fail .invalidBuffer item (bs.drop 10) := by
  rw [TypeEnv.deserializeVarint, readVarint_eq le_rfl]
  cases varintEnd 10 bs with
  | some n => rfl
  | none =>
    dsimp only
    by_cases hlen : bs.length < 10
    · rw [if_pos hlen, if_pos hlen]
    · rw [if_neg hlen, if_neg hlen]

/-- No more than ten bytes are read. -/
theorem deserializeVarint_ends :
    (TypeEnv.deserializeVarint true f item bs).Ends fun rest => ∃ n ≤ 10, rest = bs.drop n := by
  rw [deserializeVarint_eq]
  cases hend : varintEnd 10 bs with
  | some n => exact ⟨n, (varintEnd_bounds hend).2.1, rfl⟩
  | none =>
    dsimp only
    split
    · rename_i hlen
      exact ⟨bs.length, hlen.le, List.drop_length.symm⟩
    · exact ⟨10, le_rfl, rfl⟩

theorem deserializeVarint_serializeVarint {b : Bytes} (hsize : f.size = 4 ∨ f.size = 8)
    (hlen : b.length = f.size) (item : Val) (s : Bytes) :
    TypeEnv.deserializeVarint true f item (serializeVarint f b ++ s) = .done (.bytes b) s := by
  rw [TypeEnv.deserializeVarint, serializeVarint,
    readVarint_varintBytes (varintWord_lt hsize hlen) s]
  dsimp only
  rw [if_pos rfl, varintValue_varintWord hsize hlen]

/-- The codec of an integer type, plain or zigzag mapped. What is read of an encoding that stands
for no member of the type is the member with its low bits. -/
theorem codecSpec (f : VarintForm) (hsize : f.size = 4 ∨ f.size = 8) : CodecSpec f where
  roundTrip item b s hlen :=
    ⟨deserializeVarint_serializeVarint hsize hlen item s, serializeVarint_length f b⟩
  atMostTen _ _ := deserializeVarint_ends
  done_iff item x bs rest := by
    rw [deserializeVarint_eq]
    cases hend : varintEnd 10 bs with
    | some n =>
      dsimp only
      constructor
      · intro h
        cases h
        exact ⟨n, rfl, rfl, rfl⟩
      · rintro ⟨m, hm, rfl, rfl⟩
        rw [Option.some.inj hm]
    | none =>
      constructor
      · intro h
        dsimp only at h
        split at h <;> cases h
      · rintro ⟨n, hn, -⟩
        cases hn
  noBufferSpace_iff item x bs rest := by
    rw [deserializeVarint_eq, ← varintEnd_eq_none_iff]
    cases hend : varintEnd 10 bs with
    | some n => exact iff_of_false (fun h => nomatch h) fun h => nomatch h.1.2
    | none =>
      dsimp only
      split
      · rename_i hlen
        constructor
        · intro h
          cases h
          exact ⟨⟨hlen, rfl⟩, rfl, rfl⟩
        · rintro ⟨-, rfl, rfl⟩
          rfl
      · rename_i hlen
        exact iff_of_false (fun h => nomatch h) fun h => hlen h.1.1
  invalidBuffer_iff item x bs rest := by
    rw [deserializeVarint_eq, ← varintEnd_eq_none_iff]
    cases hend : varintEnd 10 bs with
    | some n => exact iff_of_false (fun h => nomatch h) fun h => nomatch h.1.2
    | none =>
      dsimp only
      split
      · rename_i hlen
        exact iff_of_false (fun h => nomatch h) fun h => by omega
      · rename_i hlen
        constructor
        · intro h
          cases h
          exact ⟨⟨by omega, rfl⟩, rfl, rfl⟩
        · rintro ⟨-, rfl, rfl⟩
          rfl

/-- The form of `uint32_t`. -/
def plainUint32 : VarintForm := ⟨false, 4, false⟩

theorem codecSpec_plainUint32 : CodecSpec plainUint32 := codecSpec plainUint32 (.inl rfl)

/-- Five bytes that stand for `2 ^ 32` are read as the `uint32_t` zero. -/
theorem not_rejectsUnfit : ¬ RejectsUnfit plainUint32 := by
  intro h
  obtain ⟨b, hlen, hword⟩ := h .null (.bytes [0, 0, 0, 0]) [0x80, 0x80, 0x80, 0x80, 0x10] [] rfl
  have hlt := ofLE_lt b
  have hnum : varintWord plainUint32 b = ofLE b := rfl
  rw [hlen] at hlt
  rw [hnum] at hword
  have hgroups : groups ([0x80, 0x80, 0x80, 0x80, 0x10].take 5) = 2 ^ 32 := by decide
  change ofLE b = groups ([0x80, 0x80, 0x80, 0x80, 0x10].take 5) at hword
  rw [hword, hgroups] at hlt
  exact absurd hlt (by decide)

end Yalantinglibs.StructPack
