import Yalantinglibs.Data.ByteCodec
import Mathlib.Order.Lattice

/-!
# The types of struct_pack and their values

struct_pack serializes C++ types that it inspects at compile time. This file gives those
types a syntax. A struct is referred to by its position in the list of struct definitions,
so that a definition may refer to itself through a `unique_ptr` or a container.

A value of a trivially serializable type is its object representation, padding bytes
included, because that is what the library copies. Every other value is a tree.

## Main definitions

* `Ty` — the types, with decidable equality (`std::is_same_v`)
* `Val` — the values
* `StructDef` / `TypeEnv` — the struct definitions and the build options of a program
* `TypeEnv.getTypeConfig` — `get_type_config`, the `sp_config` of a type
* `varintForm` — `varint_t`, whether and how a member is coded as a varint
-/

set_option autoImplicit false

namespace Yalantinglibs.StructPack

open ByteCodec

/-! ### Types -/

/-- The arithmetic types. `int32` to `uint64` are the `<cstdint>` types; `long long` is a
type of its own where `int64_t` is `long`. `char` and `char8_t` share one type id. -/
inductive Fundamental
  | int8 | uint8 | int16 | uint16 | int32 | uint32 | int64 | uint64
  | longLong | unsignedLongLong
  | bool | char8 | char16 | char32 | float32 | float64
  deriving DecidableEq, Repr

/-- `sizeof`, which is also the alignment. -/
def Fundamental.size : Fundamental → ℕ
  | .int8 | .uint8 | .bool | .char8 => 1
  | .int16 | .uint16 | .char16 => 2
  | .int32 | .uint32 | .char32 | .float32 => 4
  | .int64 | .uint64 | .longLong | .unsignedLongLong | .float64 => 8

/-- The wrappers `var_int32_t`, `var_int64_t` (`sint<T>`), `var_uint32_t` and
`var_uint64_t` (`varint<T>`). -/
inductive VarIntKind
  | varInt32 | varInt64 | varUint32 | varUint64
  deriving DecidableEq, Repr

def VarIntKind.size : VarIntKind → ℕ
  | .varInt32 | .varUint32 => 4
  | .varInt64 | .varUint64 => 8

/-- Sequence containers: `string` and `stringView` are those with character elements. -/
inductive ContainerKind
  | string | stringView | vector | span | deque | list
  deriving DecidableEq, Repr

/-- `continuous_container`: the elements lie in one block. -/
def ContainerKind.continuous : ContainerKind → Bool
  | .string | .stringView | .vector | .span => true
  | .deque | .list => false

/-- An associative container: `multi` allows equivalent keys, `hashed` is the
`unordered_` variant. -/
structure AssociativeKind where
  multi : Bool
  hashed : Bool
  deriving DecidableEq, Repr

/-- The number of the payload pass. -/
def UINT64_MAX : ℕ := 2 ^ 64 - 1

/-- The version of a `compatible` member; `UINT64_MAX` numbers the payload pass. -/
def Version := { v : ℕ // v < UINT64_MAX }
  deriving DecidableEq

/-- The types struct_pack handles. `polymorphic base` is the `unique_ptr` of a base class, whose
objects may be of classes that are derived from it. -/
inductive Ty
  | fundamental (k : Fundamental)
  | enumeration (name : ℕ) (underlying : Fundamental)
  | varInt (k : VarIntKind)
  | monostate
  | trivialView (t : Ty)
  | container (kind : ContainerKind) (t : Ty)
  | set (kind : AssociativeKind) (t : Ty)
  | map (kind : AssociativeKind) (key mapped : Ty)
  | array (t : Ty) (n : ℕ)
  | optional (t : Ty)
  | uniquePtr (t : Ty)
  | polymorphic (base : ℕ)
  | variant (ts : List Ty)
  | expected (t e : Ty)
  | pair (first second : Ty)
  | tuple (ts : List Ty)
  | struct (name : ℕ)
  | compatible (t : Ty) (version : Version)

namespace Ty

mutual

/-- `std::is_same_v`. -/
def same : Ty → Ty → Bool
  | fundamental k, fundamental k' => k = k'
  | enumeration n k, enumeration n' k' => n = n' && k = k'
  | varInt k, varInt k' => k = k'
  | monostate, monostate => true
  | trivialView t, trivialView t' => same t t'
  | container k t, container k' t' => k = k' && same t t'
  | set k t, set k' t' => k = k' && same t t'
  | map k t u, map k' t' u' => k = k' && (same t t' && same u u')
  | array t n, array t' n' => n = n' && same t t'
  | optional t, optional t' => same t t'
  | uniquePtr t, uniquePtr t' => same t t'
  | polymorphic n, polymorphic n' => n = n'
  | variant ts, variant ts' => sameAll ts ts'
  | expected t u, expected t' u' => same t t' && same u u'
  | pair t u, pair t' u' => same t t' && same u u'
  | tuple ts, tuple ts' => sameAll ts ts'
  | struct n, struct n' => n = n'
  | compatible t v, compatible t' v' => v = v' && same t t'
  | _, _ => false

/-- Two parameter packs agree member by member. -/
def sameAll : List Ty → List Ty → Bool
  | [], [] => true
  | t :: ts, t' :: ts' => same t t' && sameAll ts ts'
  | _, _ => false

end

mutual

theorem same_iff : ∀ t t' : Ty, same t t' = true ↔ t = t'
  | fundamental _, t' => by cases t' <;> simp [same]
  | enumeration _ _, t' => by cases t' <;> simp [same]
  | varInt _, t' => by cases t' <;> simp [same]
  | monostate, t' => by cases t' <;> simp [same]
  | trivialView t, t' => by cases t' <;> simp [same, same_iff t]
  | container _ t, t' => by cases t' <;> simp [same, same_iff t]
  | set _ t, t' => by cases t' <;> simp [same, same_iff t]
  | map _ t u, t' => by cases t' <;> simp [same, same_iff t, same_iff u]
  | array t _, t' => by cases t' <;> simp [same, same_iff t, and_comm]
  | optional t, t' => by cases t' <;> simp [same, same_iff t]
  | uniquePtr t, t' => by cases t' <;> simp [same, same_iff t]
  | polymorphic _, t' => by cases t' <;> simp [same]
  | variant ts, t' => by cases t' <;> simp [same, sameAll_iff ts]
  | expected t u, t' => by cases t' <;> simp [same, same_iff t, same_iff u]
  | pair t u, t' => by cases t' <;> simp [same, same_iff t, same_iff u]
  | tuple ts, t' => by cases t' <;> simp [same, sameAll_iff ts]
  | struct _, t' => by cases t' <;> simp [same]
  | compatible t _, t' => by cases t' <;> simp [same, same_iff t, and_comm]

theorem sameAll_iff : ∀ ts ts' : List Ty, sameAll ts ts' = true ↔ ts = ts'
  | [], ts' => by cases ts' <;> simp [sameAll]
  | t :: ts, ts' => by cases ts' <;> simp [sameAll, same_iff t, sameAll_iff ts]

end

instance : DecidableEq Ty := fun t t' => decidable_of_iff _ (same_iff t t')

/-- `is_compatible_v`. -/
def isCompatible : Ty → Bool
  | compatible _ _ => true
  | _ => false

end Ty

/-! ### Values -/

/-- A value. `bytes` is an object representation; `list` holds the elements of a container
or an array, the entries of a map as two-element lists, or the members of a struct; `alt`
is the alternative of a variant, and of an `expected` with `1` for the value and `0` for
the error, and the object behind a pointer to a base class, with the place of its class among
the derived ones. -/
inductive Val
  | bytes (b : Bytes)
  | list (xs : List Val)
  | null
  | engaged (v : Val)
  | alt (i : ℕ) (v : Val)

namespace Val

/-- The object representation of a value that has one. -/
def repr : Val → Bytes
  | bytes b => b
  | _ => []

/-- The elements, entries or members of a value that has them. -/
def items : Val → List Val
  | list xs => xs
  | _ => []

/-- An entry of a map. -/
def entry (k m : Val) : Val := list [k, m]

mutual

/-- The depth of a value. -/
def height : Val → ℕ
  | bytes _ => 1
  | list xs => 1 + heightAll xs
  | null => 1
  | engaged v => 1 + height v
  | alt _ v => 1 + height v

/-- The largest depth in a list. -/
def heightAll : List Val → ℕ
  | [] => 0
  | x :: xs => max (height x) (heightAll xs)

end

theorem height_le_heightAll {x : Val} {xs : List Val} (h : x ∈ xs) : x.height ≤ heightAll xs := by
  induction xs with
  | nil => simp at h
  | cons y ys ih =>
    rw [heightAll]
    rcases List.mem_cons.mp h with rfl | h
    · exact le_max_left _ _
    · exact (ih h).trans (le_max_right _ _)

theorem height_pos (v : Val) : 0 < v.height := by
  cases v <;> simp [height]

theorem height_lt_of_mem_items {x v : Val} (h : x ∈ v.items) : x.height < v.height := by
  cases v with
  | list xs =>
    have : x.height ≤ heightAll xs := height_le_heightAll h
    rw [height]
    omega
  | _ => simp [items] at h

@[simp] theorem repr_bytes (b : Bytes) : (bytes b).repr = b := rfl

@[simp] theorem items_list (xs : List Val) : (list xs).items = xs := rfl

theorem list_injective : Function.Injective list := fun _ _ h => list.inj h

theorem engaged_injective : Function.Injective engaged := fun _ _ h => engaged.inj h

theorem alt_injective (i : ℕ) : Function.Injective (alt i) := fun _ _ h => (alt.inj h).2

end Val

/-! ### Programs -/

/-- An `sp_config` value as the 64-bit flags it is passed as. -/
abbrev SpConfig := ℕ

namespace SpConfig

def DEFAULT : SpConfig := 0
def DISABLE_TYPE_INFO : SpConfig := 0b1
def ENABLE_TYPE_INFO : SpConfig := 0b10
def DISABLE_ALL_META_INFO : SpConfig := 0b11
def ENCODING_WITH_VARINT : SpConfig := 0b100
def USE_FAST_VARINT : SpConfig := 0b1000

end SpConfig

/-- `is_enable_fast_varint_coding`. -/
def isEnableFastVarintCoding (tag : SpConfig) : Bool := tag &&& SpConfig.USE_FAST_VARINT ≠ 0

/-- A reflected struct. -/
structure StructDef where
  /-- the types of the members, in order -/
  fields : List Ty
  /-- the value of `T{}`, default member initialisers applied -/
  init : Val
  /-- `set_sp_config` or `T::struct_pack_config`, if there is one -/
  config : Option SpConfig := none
  /-- `T::struct_pack_id` or the `struct_pack_id` found by argument-dependent lookup -/
  packId : Option ℕ := none
  /-- `user_defined_refl`: reflected by the macro `YLT_REFL` -/
  userDefinedRefl : Bool := false
  /-- `#pragma pack`, declared to the library as `pack_alignment_v<T>`; `0` is none -/
  packAlignment : ℕ := 0
  /-- `alignas`, declared to the library as `alignment_v<T>`; `0` is none -/
  alignment : ℕ := 0
  /-- `derived_class_set_t` of a base class: the classes of its objects -/
  derived : List ℕ := []

/-- A program that uses struct_pack: its structs, its build options, and what the standard
library and the compiler decide for it. -/
structure TypeEnv where
  structs : List StructDef
  /-- the config that a `set_default` visible to the library returns -/
  setDefault : Option SpConfig := none
  /-- `NDEBUG` is defined -/
  ndebug : Bool := false
  /-- the comparator of the ordered containers with keys of a type -/
  keyLess : Ty → Val → Val → Bool
  /-- the `==` of the hashed containers with keys of a type -/
  keyEqual : Ty → Val → Val → Bool
  /-- the padding bytes of the pair that a map stores for an entry -/
  pairPadding : Val → ℕ → UInt8

namespace TypeEnv

/-- A program without structs, whose keys are compared by their object representations. -/
def plain : TypeEnv where
  structs := []
  keyLess _ x y := ofLE x.repr < ofLE y.repr
  keyEqual _ x y := x.repr = y.repr
  pairPadding _ _ := 0

variable (Γ : TypeEnv)

/-- The members of a struct. -/
def fields (name : ℕ) : List Ty := (Γ.structs[name]?.map StructDef.fields).getD []

/-- `derived_class_set_t`. -/
def derivedClasses (base : ℕ) : List Ty :=
  ((Γ.structs[base]?.map StructDef.derived).getD []).map .struct

/-- `get_type_config`. -/
def getTypeConfig : Ty → SpConfig
  | .struct name => ((Γ.structs[name]?.bind StructDef.config).or Γ.setDefault).getD SpConfig.DEFAULT
  | _ => Γ.setDefault.getD SpConfig.DEFAULT

/-- `get_parent_tag` of one parent. -/
def getParentTag (t : Ty) : SpConfig := Γ.getTypeConfig t

/-- `get_types`: a type as the list of its members. -/
def getTypes : Ty → List Ty
  | .tuple ts => ts
  | .pair a b => [a, b]
  | .struct name => Γ.fields name
  | t => [t]

end TypeEnv

/-! ### Varint members -/

/-- How a varint member is coded: the signedness and size of its integer, and whether it is
zigzag mapped when it is written byte by byte. -/
structure VarintForm where
  signed : Bool
  size : ℕ
  zigzag : Bool
  deriving DecidableEq, Repr

/-- `varint_t<T, parent_tag>`: the wrappers always, the four plain integer types when the
struct around them asks for it. -/
def varintForm (parentTag : SpConfig) : Ty → Option VarintForm
  | .varInt .varInt32 => some ⟨true, 4, true⟩
  | .varInt .varInt64 => some ⟨true, 8, true⟩
  | .varInt .varUint32 => some ⟨false, 4, false⟩
  | .varInt .varUint64 => some ⟨false, 8, false⟩
  | .fundamental k =>
    if parentTag &&& SpConfig.ENCODING_WITH_VARINT ≠ 0 then
      match k with
      | .int32 => some ⟨true, 4, false⟩
      | .int64 => some ⟨true, 8, false⟩
      | .uint32 => some ⟨false, 4, false⟩
      | .uint64 => some ⟨false, 8, false⟩
      | _ => none
    else none
  | _ => none

/-- `varint_t` as a test. -/
def isVarint (parentTag : SpConfig) (t : Ty) : Bool := (varintForm parentTag t).isSome

theorem varintForm_size {tag : SpConfig} {t : Ty} {f : VarintForm}
    (h : varintForm tag t = some f) : f.size = 4 ∨ f.size = 8 := by
  cases t with
  | varInt k => cases k <;> simp_all [varintForm] <;> simp [← h]
  | fundamental k =>
    simp only [varintForm] at h
    split at h
    · cases k <;> simp_all <;> simp [← h]
    · simp at h
  | _ => simp [varintForm] at h

end Yalantinglibs.StructPack
