import Yalantinglibs.StructPack.CalculateSize

/-!
# The writer

`packer.hpp` on a little-endian target: the header, the payload pass, which writes every
value but the `compatible` members, and one pass for each version, which writes the
`compatible` members of that version.

## Main definitions

* `TypeEnv.serializeOne`, `TypeEnv.serializeMany` — the payload pass
* `TypeEnv.serializeVersion`, `TypeEnv.serializeVersionMany` — the pass of a version
* `TypeEnv.serializeMetainfo` — the header
* `TypeEnv.serializeTo` — the message
-/

set_option autoImplicit false

namespace Yalantinglibs.StructPack

open ByteCodec

namespace TypeEnv

variable (Γ : TypeEnv)

/-! ### The payload pass -/

/-- The bytes of the object behind a `trivial_view`. -/
def serializeTrivial : Ty → Bytes → Bytes
  | .monostate, _ => []
  | _, b => b

/-- A member that `varint_t` holds of. -/
def serializeVarintMember (tag : SpConfig) (f : VarintForm) (b : Bytes) : Bytes :=
  -- in fast mode the parent has written the member in its block
  if isEnableFastVarintCoding tag then [] else serializeVarint f b

/-- A class object that is not trivially serializable, from its members written with
padding, or under a parent tag. -/
def serializeClass (t : Ty) (xs : List Val) (padded : Bytes) (many : SpConfig → Bytes) : Bytes :=
  if Γ.isTrivialIgnoringCompatible t then padded
  else
    let tag := Γ.getParentTag t
    (if isEnableFastVarintCoding tag then
      fastVarintBytes (varintMembers tag (Γ.getTypes t) xs)
    else []) ++ many tag

mutual

/-- `serialize_one<size_type, UINT64_MAX, parent_tag>`, where `w` is the width of the
container lengths. The second form of a pair is the entry of a map, whose members lie
apart. -/
def serializeOne (w : ℕ) (tag : SpConfig) : Ty → Val → Bytes
  | .trivialView t, v => serializeTrivial t v.repr
  | .compatible _ _, _ => []
  | .monostate, _ => []
  | .varInt k, v =>
    match varintForm tag (.varInt k) with
    | some f => serializeVarintMember tag f v.repr
    | none => []
  | .fundamental k, v =>
    match varintForm tag (.fundamental k) with
    | some f => serializeVarintMember tag f v.repr
    | none => v.repr
  | .enumeration _ _, v => v.repr
  | .uniquePtr _, .null => [0]
  | .uniquePtr t, .engaged v => 1 :: serializeOne w SpConfig.DEFAULT t v
  | .polymorphic _, .null => [0]
  | .polymorphic base, .alt i v =>
    1 ::
      match Γ.dispatch base i with
      | some (id, t) => toLE 4 id.toNat ++ serializeOne w SpConfig.DEFAULT t v
      | none => []
  | .array _ _, .bytes b => b
  | .array t _, .list xs => serializeAll w t xs
  | .container kind t, .list xs =>
    toLE w xs.length ++
      if Γ.isTriviallyCopyable kind t then xs.flatMap Val.repr else serializeAll w t xs
  | .set _ t, .list xs => toLE w xs.length ++ serializeAll w t xs
  | .map _ k m, .list xs => toLE w xs.length ++ serializeAll w (.pair k m) xs
  | .tuple ts, .list xs => serializeMany w SpConfig.DEFAULT ts xs
  | .optional _, .null => [0]
  | .optional t, .engaged v => 1 :: serializeOne w SpConfig.DEFAULT t v
  | .variant ts, .alt i v =>
    UInt8.ofNat i ::
      match ts[i]? with
      | some t => serializeOne w SpConfig.DEFAULT t v
      | none => []
  | .expected t e, .alt i v =>
    (if i = 1 then 1 else 0) :: serializeOne w SpConfig.DEFAULT (if i = 1 then t else e) v
  | .pair _ _, .bytes b => b
  | .pair a b, .list xs =>
    if Γ.isTrivialSerializable (.pair a b) then
      Γ.pairImage a b (xs.getD 0 .null).repr (xs.getD 1 .null).repr (Γ.pairPadding (.list xs))
    else
      Γ.serializeClass (.pair a b) xs
        (serializePadded w [a, b] (Γ.paddingSize (.pair a b)).tail xs)
        fun tag => serializeMany w tag [a, b] xs
  | .struct _, .bytes b => b
  | .struct name, .list xs =>
    Γ.serializeClass (.struct name) xs
      (serializePadded w (Γ.fields name) (Γ.paddingSize (.struct name)).tail xs)
      fun tag => serializeMany w tag (Γ.fields name) xs
  | _, _ => []

/-- The elements of a container or an array. -/
def serializeAll (w : ℕ) (t : Ty) : List Val → Bytes
  | [] => []
  | x :: xs => serializeOne w SpConfig.DEFAULT t x ++ serializeAll w t xs

/-- `serialize_many<size_type, UINT64_MAX, parent_tag>`. -/
def serializeMany (w : ℕ) (tag : SpConfig) : List Ty → List Val → Bytes
  | t :: ts, x :: xs => serializeOne w tag t x ++ serializeMany w tag ts xs
  | _, _ => []

/-- The members of a padded struct, each with the padding behind it. -/
def serializePadded (w : ℕ) : List Ty → List ℕ → List Val → Bytes
  | t :: ts, p :: ps, x :: xs =>
    serializeOne w SpConfig.DEFAULT t x ++ List.replicate p 0 ++ serializePadded w ts ps xs
  | _, _, _ => []

end

/-! ### The pass of a version -/

/-- What the pass of a version writes for a type, nothing where the type has no member of
that version. -/
def whenExists (version : Version) (t : Ty) (b : Bytes) : Bytes :=
  if Γ.existCompatibleMemberOf version t then b else []

mutual

/-- `serialize_one<size_type, version>` for a version other than `UINT64_MAX`. It does not come to
a pointer to a base class, which has no such member as a type. -/
def serializeVersion (w : ℕ) (version : Version) : Ty → Val → Bytes
  | .compatible t version', .null =>
    Γ.whenExists version (.compatible t version') (if version = version' then [0] else [])
  | .compatible t version', .engaged v =>
    Γ.whenExists version (.compatible t version')
      (if version = version' then 1 :: Γ.serializeOne w SpConfig.DEFAULT t v else [])
  | .uniquePtr t, .engaged v =>
    Γ.whenExists version (.uniquePtr t) (serializeVersion w version t v)
  | .array t n, .list xs => Γ.whenExists version (.array t n) (serializeVersionAll w version t xs)
  | .container kind t, .list xs =>
    Γ.whenExists version (.container kind t) (serializeVersionAll w version t xs)
  | .set kind t, .list xs =>
    Γ.whenExists version (.set kind t) (serializeVersionAll w version t xs)
  | .map kind k m, .list xs =>
    Γ.whenExists version (.map kind k m) (serializeVersionAll w version (.pair k m) xs)
  | .tuple ts, .list xs =>
    Γ.whenExists version (.tuple ts) (serializeVersionMany w version ts xs)
  | .optional t, .engaged v =>
    Γ.whenExists version (.optional t) (serializeVersion w version t v)
  | .variant ts, .alt i v =>
    Γ.whenExists version (.variant ts)
      (match ts[i]? with
      | some t => serializeVersion w version t v
      | none => [])
  | .expected t e, .alt i v =>
    Γ.whenExists version (.expected t e)
      (serializeVersion w version (if i = 1 then t else e) v)
  | .pair a b, .list xs =>
    Γ.whenExists version (.pair a b) (serializeVersionMany w version [a, b] xs)
  | .struct name, .list xs =>
    Γ.whenExists version (.struct name) (serializeVersionMany w version (Γ.fields name) xs)
  | _, _ => []

def serializeVersionAll (w : ℕ) (version : Version) (t : Ty) : List Val → Bytes
  | [] => []
  | x :: xs => serializeVersion w version t x ++ serializeVersionAll w version t xs

/-- `serialize_many<size_type, version>`. -/
def serializeVersionMany (w : ℕ) (version : Version) : List Ty → List Val → Bytes
  | t :: ts, x :: xs => serializeVersion w version t x ++ serializeVersionMany w version ts xs
  | _, _ => []

end

/-! ### The message -/

/-- The first argument of a call. -/
def firstArg (ts : List Ty) : Ty := ts.headD .monostate

/-- `calculate_hash_head<conf, T, Args...>`: the metainfo flag depends on the first
argument alone. -/
def calculateHashHead (conf : SpConfig) (ts : List Ty) : ℕ :=
  Γ.getTypesCode (getArgsType ts) +
    if Γ.checkHasMetainfo conf (firstArg ts) then 1 else 0

/-- `hash_head % 2`: whether `serialize_metainfo` goes on behind the hash. -/
def writesMetainfo (conf : SpConfig) (isDefaultSizeType : Bool) (ts : List Ty) : Bool :=
  (Γ.calculateHashHead conf ts ||| if isDefaultSizeType then 0 else 1) % 2 = 1

/-- The length field. -/
def serializeLength (info : SerializeBufferSize) : Bytes :=
  match info.metainfo &&& 0b11 with
  | 1 => toLE 2 info.len
  | 2 => toLE 4 info.len
  | 3 => toLE 8 info.len
  | _ => []

/-- `serialize_metainfo<conf, is_default_size_type>`. -/
def serializeMetainfo (conf : SpConfig) (isDefaultSizeType : Bool) (ts : List Ty)
    (info : SerializeBufferSize) : Bytes :=
  let type := getArgsType ts
  (if Γ.checkIfDisableHashHead conf type then []
    else toLE 4 (Γ.calculateHashHead conf ts ||| if isDefaultSizeType then 0 else 1)) ++
  if Γ.writesMetainfo conf isDefaultSizeType ts then
    UInt8.ofNat info.metainfo ::
      ((if Γ.existCompatibleMember type then serializeLength info else []) ++
        if Γ.checkIfAddTypeLiteral conf type then Γ.getTypeLiteral type ++ [0] else [])
  else []

/-- The class that `serialize_to` reads off the metainfo byte. -/
def packerWidthClass (ts : List Ty) (info : SerializeBufferSize) : ℕ :=
  if Γ.checkIfHasContainer (getArgsType ts) then (info.metainfo &&& 0b11000) >>> 3 else 0

/-- All passes over the versions of the message. -/
def serializeVersions (w : ℕ) (ts : List Ty) (xs : List Val) : Bytes :=
  if Γ.existCompatibleMember (getArgsType ts) then
    (Γ.compatibleVersionNumber (getArgsType ts)).flatMap fun version =>
      Γ.serializeVersionMany w version ts xs
  else []

/-- `detail::serialize_to<conf>`: every byte passed to the writer. -/
def serializeTo (conf : SpConfig) (ts : List Ty) (xs : List Val)
    (info : SerializeBufferSize) : Bytes :=
  let w := 2 ^ Γ.packerWidthClass ts info
  Γ.serializeMetainfo conf (Γ.packerWidthClass ts info = 0) ts info ++
    (Γ.serializeMany w SpConfig.DEFAULT ts xs ++ Γ.serializeVersions w ts xs)

end TypeEnv

end Yalantinglibs.StructPack
