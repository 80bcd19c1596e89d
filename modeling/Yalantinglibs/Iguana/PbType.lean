import Yalantinglibs.Data.ByteCodec
import Yalantinglibs.StructPack.Varint
import Mathlib.Data.BitVec
import Mathlib.Data.List.Basic

/-!
# Messages of struct_pb

The types that `iguana/pb_util.hpp` takes for the members of a message, their values, and how a
number is turned into a varint and back.

## Main definitions

* `Num`, `Ty`, `Member`, `MessageDef`, `Schema` — types of members, and messages
* `Val`, `Schema.HasTy` — values, and those of a type
* `Ty.accepted` — the types that the templates take
* `getWireType`, `keyOf` — the key in front of a field
* `Num.word`, `Num.ofWord` — the number that is written for a numeric member, and back

## Main results

* `Num.ofWord_word` — a number is restored

A message that is recursive through its containers refers to itself by its number in the schema.
The object that a default constructor makes is part of a message, as members may have
initializers.
-/

set_option autoImplicit false

namespace Yalantinglibs.Iguana.Pb

open ByteCodec

/-! ### Types -/

/-- The widths of integral types. -/
inductive Width
  | w8 | w16 | w32 | w64
  deriving DecidableEq, Repr

def Width.bits : Width → ℕ
  | .w8 => 8
  | .w16 => 16
  | .w32 => 32
  | .w64 => 64

/-- The numeric types; an `enumeration` has an underlying type. -/
inductive Num
  | bool
  | integral (w : Width) (signed : Bool)
  | enumeration (w : Width) (signed : Bool)
  | sint32 | sint64
  | fixed32 | sfixed32 | float
  | fixed64 | sfixed64 | double
  deriving DecidableEq, Repr

/-- The types of members. -/
inductive Ty
  | num (k : Num)
  | string
  | message (id : ℕ)
  | sequence (item : Ty)
  | map (key mapped : Ty)
  | optional (t : Ty)
  deriving DecidableEq, Repr

/-- `WireType`, as far as a type has one. -/
inductive WireType
  | varint | fixed64 | lengthDelimeted | fixed32
  deriving DecidableEq, Repr

def WireType.code : WireType → ℕ
  | .varint => 0
  | .fixed64 => 1
  | .lengthDelimeted => 2
  | .fixed32 => 5

def Num.wireType : Num → WireType
  | .bool | .integral _ _ | .enumeration _ _ | .sint32 | .sint64 => .varint
  | .fixed32 | .sfixed32 | .float => .fixed32
  | .fixed64 | .sfixed64 | .double => .fixed64

/-- The width of a fixed-width type. -/
def Num.width : Num → ℕ
  | .fixed64 | .sfixed64 | .double => 8
  | _ => 4

/-- `get_wire_type`. -/
def Ty.getWireType : Ty → WireType
  | .num k => k.wireType
  | .string | .message _ | .sequence _ | .map _ _ => .lengthDelimeted
  | .optional t => t.getWireType

/-- `is_lenprefix_v`. -/
def Ty.isLenprefixed (t : Ty) : Bool := t.getWireType = .lengthDelimeted

/-- The key of a field. -/
def keyOf (fieldNo : ℕ) (t : Ty) : ℕ := fieldNo <<< 3 ||| t.getWireType.code

/-! ### Values -/

/-- A value. A number is held as the 64 bits that a conversion to `uint64_t` gives, a floating
point or fixed-width one as its bits. The entries of a map are pairs, in the order of the map. -/
inductive Val
  | num (u : BitVec 64)
  | str (s : Bytes)
  | list (vs : List Val)
  | pair (key mapped : Val)
  | none
  | some (v : Val)
  | alt (i : ℕ) (v : Val)

/-- The items of a sequence, the entries of a map, the members of a message. -/
def Val.items : Val → List Val
  | .list vs => vs
  | _ => []

/-- The type of a member: `std::variant` is a type of members only. -/
inductive MemberTy
  | plain (t : Ty)
  | oneof (ts : List Ty)

/-- A member: its field number, that of its first alternative for a `oneof`. -/
structure Member where
  fieldNo : ℕ
  ty : MemberTy

/-- A message type. -/
structure MessageDef where
  /-- `inherits_from_base_v` -/
  base : Bool
  members : List Member
  /-- what the default constructor makes of the members -/
  init : List Val

/-- What is written for a member: a member that is no `oneof` may be omitted. -/
structure Field where
  fieldNo : ℕ
  ty : Ty
  omitDefaultVal : Bool
  val : Val

/-- The field of a member that has a value. -/
def Member.field (m : Member) (v : Val) : Option Field :=
  match m.ty, v with
  | .plain t, v => Option.some ⟨m.fieldNo, t, true, v⟩
  | .oneof ts, .alt a v => ts[a]?.map fun t => ⟨m.fieldNo + a, t, false, v⟩
  | .oneof _, _ => Option.none

/-- The message types of a program. -/
abbrev Schema := List MessageDef

namespace Schema

variable (S : Schema)

/-- The type with a number. -/
def message (id : ℕ) : MessageDef := S.getD id ⟨false, [], []⟩

/-- `T{}`. -/
def fresh : Ty → Val
  | .num _ => .num 0
  | .string => .str []
  | .message id => .list (S.message id).init
  | .sequence _ | .map _ _ => .list []
  | .optional _ => .none

end Schema

/-! ### Types that are accepted -/

/-- A type of items that are packed. -/
def Ty.isNum : Ty → Bool
  | .num _ => true
  | _ => false

/-- The types that `pb_value_size` takes, those of mapped values. -/
def Ty.hasValueSize : Ty → Bool
  | .num _ | .string | .message _ => true
  | .sequence t => t.isNum
  | .map _ _ => false
  | .optional t => t.hasValueSize

/-- The types that do not fail to compile. -/
def Ty.accepted : Ty → Bool
  | .num _ | .string | .message _ => true
  | .sequence t => t.accepted && (t.isLenprefixed || t.isNum)
  | .map k m => (k.isNum || k = .string) && m.accepted && m.hasValueSize
  | .optional t => t.accepted

/-! ### Numbers -/

/-- The values of an integral type that is `w` bits wide, in 64 bits. -/
def extend (w : ℕ) (signed : Bool) (u : BitVec 64) : BitVec 64 :=
  if signed then (u.setWidth w).signExtend 64 else (u.setWidth w).setWidth 64

/-- The value as the type has it. -/
def Num.cast : Num → BitVec 64 → BitVec 64
  | .bool, u => if u = 0 then 0 else 1
  | .integral w signed, u | .enumeration w signed, u => extend w.bits signed u
  | .sint32, u => extend 32 true u
  | .fixed32, u | .sfixed32, u | .float, u => extend 32 false u
  | .sint64, u | .fixed64, u | .sfixed64, u | .double, u => u

/-- Whether the value compares equal to zero. -/
def Num.isZero : Num → BitVec 64 → Bool
  -- both zeros of a floating point type do
  | .float, u => u.setWidth 31 = 0
  | .double, u => u.setWidth 63 = 0
  | _, u => u = 0

/-- `encode_zigzag`. -/
def encodeZigzag {w : ℕ} (v : BitVec w) : BitVec w := (v <<< 1) ^^^ -(v >>> (w - 1))

/-- `decode_zigzag`, which is 64 bits wide for both types. -/
def decodeZigzag (u : BitVec 64) : BitVec 64 := (u >>> 1) ^^^ -(u &&& 1)

/-- The number that is written as a varint. -/
def Num.word : Num → BitVec 64 → ℕ
  | .sint32, u => (encodeZigzag (u.setWidth 32)).toNat
  | .sint64, u => (encodeZigzag u).toNat
  | _, u => u.toNat

/-- The number that is read from a varint. -/
def Num.ofWord : Num → ℕ → BitVec 64
  | .sint32, n => extend 32 true (decodeZigzag (BitVec.ofNat 64 (n % 2 ^ 32)))
  | .sint64, n => decodeZigzag (BitVec.ofNat 64 n)
  | k, n => k.cast (BitVec.ofNat 64 n)

/-! ### Values of a type -/

/-- The values of a type. The keys of a map differ. -/
inductive Schema.HasTy (S : Schema) : Ty → Val → Prop
  | num (k : Num) (u : BitVec 64) (hu : k.cast u = u) : HasTy S (.num k) (.num u)
  | string (s : Bytes) : HasTy S .string (.str s)
  | message (id : ℕ) (vs : List Val) (hlen : (S.message id).members.length = vs.length)
      (hfield : ∀ p ∈ (S.message id).members.zip vs, (p.1.field p.2).isSome)
      (hval : ∀ p ∈ (S.message id).members.zip vs, ∀ f, p.1.field p.2 = Option.some f →
        HasTy S f.ty f.val) : HasTy S (.message id) (.list vs)
  | sequence (t : Ty) (vs : List Val) (hvs : ∀ v ∈ vs, HasTy S t v) :
      HasTy S (.sequence t) (.list vs)
  | map (k m : Ty) (es : List (Val × Val)) (hk : ∀ e ∈ es, HasTy S k e.1)
      (hm : ∀ e ∈ es, HasTy S m e.2) (hkeys : (es.map Prod.fst).Nodup) :
      HasTy S (.map k m) (.list (es.map fun e => .pair e.1 e.2))
  | none (t : Ty) : HasTy S (.optional t) .none
  | some (t : Ty) (v : Val) (hv : HasTy S t v) : HasTy S (.optional t) (.some v)

section Lemmas

/-- The zigzag map is undone in 64 bits. -/
theorem setWidth_decodeZigzag_encodeZigzag {w : ℕ} (hw : 0 < w) (hw' : w ≤ 64) (v : BitVec w) :
    (decodeZigzag (BitVec.ofNat 64 (encodeZigzag v).toNat)).setWidth w = v := by
  apply BitVec.eq_of_toNat_eq
  rw [BitVec.toNat_setWidth]
  exact StructPack.decodeZigzag_encodeZigzag_mod hw hw' v

theorem Num.word_lt (k : Num) (u : BitVec 64) : k.word u < 2 ^ 64 := by
  cases k with
  | sint32 => exact (encodeZigzag (u.setWidth 32)).isLt.trans (by decide)
  | sint64 => exact (encodeZigzag u).isLt
  | _ => exact u.isLt

/-- A number is restored from its varint. -/
theorem Num.ofWord_word {k : Num} {u : BitVec 64} (hu : k.cast u = u) :
    k.ofWord (k.word u) = u := by
  have hplain : BitVec.ofNat 64 u.toNat = u := by rw [BitVec.ofNat_toNat, BitVec.setWidth_eq]
  cases k with
  | sint32 =>
    have hlt : (encodeZigzag (u.setWidth 32)).toNat < 2 ^ 32 := (encodeZigzag (u.setWidth 32)).isLt
    have hv := setWidth_decodeZigzag_encodeZigzag (by decide) (by decide) (u.setWidth 32)
    rw [ofWord, word, Nat.mod_eq_of_lt hlt, extend, if_pos rfl, hv]
    exact hu
  | sint64 =>
    have hv := setWidth_decodeZigzag_encodeZigzag (by decide) (by decide) u
    rwa [BitVec.setWidth_eq] at hv
  | _ => exact (congrArg (Num.cast _) hplain).trans hu

end Lemmas

end Yalantinglibs.Iguana.Pb
