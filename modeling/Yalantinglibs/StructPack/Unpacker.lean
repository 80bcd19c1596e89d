import Yalantinglibs.Data.Decoding
import Yalantinglibs.StructPack.Value
import Yalantinglibs.StructPack.FastVarint
import Yalantinglibs.StructPack.TypeCalculate

/-!
# The reader

`unpacker.hpp` for a `memory_reader`, on a little-endian target: the header and the payload
pass. The reader decodes into an object it is given; `fresh`
is that object for `deserialize<T>`.

`deserialize_one` calls itself on the members of a type, so one step of it takes these calls
as an argument, and `deserializeOne` bounds their depth.

## Main definitions

* `TypeEnv.deserializeMetainfo` — the header
* `TypeEnv.deserializeOne` — the payload pass
-/

set_option autoImplicit false

namespace Yalantinglibs.StructPack

open ByteCodec Decoding

/-- The error codes of `errc`; a success has none. -/
inductive Errc
  | noBufferSpace | invalidBuffer | hashConflict | invalidWidthOfContainerLength
  deriving DecidableEq, Repr

/-- What decoding into an object ends with: the bytes that are left are the state. -/
abbrev Decoded (α : Type) := Outcome Errc Bytes α

/-! ### The memory reader -/

/-- `memory_reader::read`: a failing read does not move. -/
def read (len : ℕ) (bs : Bytes) : Except Errc (Bytes × Bytes) :=
  if bs.length < len then .error .noBufferSpace else .ok (bs.take len, bs.drop len)

/-- Read `len` bytes and go on with them. -/
def withBytes {α : Type} (len : ℕ) (item : α) (bs : Bytes) (next : Bytes → Bytes → Decoded α) :
    Decoded α :=
  match read len bs with
  | .error code => .fail code item bs
  | .ok (b, rest) => next b rest

/-- Read an object representation, or skip it. -/
def readImage (notSkip : Bool) (len : ℕ) (item : Val) (bs : Bytes) : Decoded Val :=
  withBytes len item bs fun b rest => .done (if notSkip then .bytes b else item) rest

/-- Read the length of a container; nothing follows a length of `0`, and nothing is done. -/
def withLength (w : ℕ) (item : Val) (bs : Bytes) (next : ℕ → Bytes → Decoded Val) :
    Decoded Val :=
  withBytes w item bs fun b rest => if ofLE b = 0 then .done item rest else next (ofLE b) rest

/-- The objects that lie one after the other in a block. -/
def splitBlock (size : ℕ) : ℕ → Bytes → List Val
  | 0, _ => []
  | n + 1, b => .bytes (b.take size) :: splitBlock size n (b.drop size)

instance : Inhabited Val := ⟨.null⟩

@[simp] theorem default_val : (default : Val) = .null := rfl

namespace TypeEnv

variable (Γ : TypeEnv)

/-! ### The header -/

/-- What `deserialize_metainfo` finds: the length field, the class of the container lengths,
and the bytes behind the header. -/
structure Metainfo where
  length : ℕ
  sizeType : ℕ
  rest : Bytes
  deriving DecidableEq, Repr

/-- `deserialize_compatible`: the length field of class `compatibleSzLen`. -/
def deserializeCompatible (compatibleSzLen : ℕ) (bs : Bytes) : Except Errc (ℕ × Bytes) :=
  if compatibleSzLen = 0 then .ok (0, bs)
  else (read (2 ^ compatibleSzLen) bs).map fun p => (ofLE p.1, p.2)

/-- `deserialize_type_literal`. -/
def deserializeTypeLiteral (t : Ty) (bs : Bytes) : Except Errc Bytes :=
  match read (Γ.getTypeLiteral t ++ [0]).length bs with
  | .error code => .error code
  | .ok (b, rest) => if b = Γ.getTypeLiteral t ++ [0] then .ok rest else .error .hashConflict

/-- The part of `deserialize_metainfo` behind a hash that announces it. -/
def deserializeMetainfoByte (t : Ty) (bs : Bytes) : Except Errc Metainfo :=
  match read 1 bs with
  | .error code => .error code
  | .ok (b, rest) =>
    match deserializeCompatible (ofLE b &&& 0b11) rest with
    | .error code => .error code
    | .ok (length, rest) =>
      match if ofLE b &&& 0b100 = 0 then .ok rest else Γ.deserializeTypeLiteral t rest with
      | .error code => .error code
      | .ok rest => .ok ⟨length, (ofLE b &&& 0b11000) >>> 3, rest⟩

/-- `deserialize_metainfo<T>`. -/
def deserializeMetainfo (conf : SpConfig) (t : Ty) (bs : Bytes) : Except Errc Metainfo :=
  if Γ.checkIfDisableHashHead conf t then
    if Γ.checkIfHasContainer t then
      (read 1 bs).map fun p => ⟨0, (ofLE p.1 &&& 0b11000) >>> 3, p.2⟩
    else .ok ⟨0, 0, bs⟩
  else
    match read 4 bs with
    | .error code => .error code
    | .ok (b, rest) =>
      if ofLE b / 2 ≠ Γ.getTypesCode t / 2 then .error .invalidBuffer
      else if ofLE b % 2 = 0 then .ok ⟨0, 0, rest⟩
      else Γ.deserializeMetainfoByte t rest

/-! ### Varint members -/

/-- `deserialize_varint`. -/
def deserializeVarint (notSkip : Bool) (f : VarintForm) (item : Val) (bs : Bytes) : Decoded Val :=
  match readVarint 10 0 0 bs with
  | .value v rest => .done (if notSkip then .bytes (varintValue f v) else item) rest
  | .exhausted => .fail .noBufferSpace item []
  | .tooLong rest => .fail .invalidBuffer item rest

/-- A member that `varint_t` holds of. -/
def deserializeVarintMember (notSkip : Bool) (tag : SpConfig) (f : VarintForm) (item : Val)
    (bs : Bytes) : Decoded Val :=
  -- in fast mode the parent has read the member with its block
  if isEnableFastVarintCoding tag then .done item bs else deserializeVarint notSkip f item bs

/-- `deserialize_one_fast_varint` for a member whose bit is set, where the block has members
of `width` bytes. -/
def deserializeOneFastVarint (notSkip : Bool) (width : ℕ) (f : VarintForm) (item : Val)
    (bs : Bytes) : Decoded Val :=
  -- an unsigned member is set to `0` before the read
  let cleared := if notSkip && !f.signed then .bytes (List.replicate f.size 0) else item
  withBytes (min width f.size) cleared bs fun b rest =>
    .done (if notSkip then .bytes (extendLow f b) else item) rest

/-- `deserialize_fast_varint_helper`: bit `i` of `bits` is that of the next varint member. -/
def deserializeFastVarintHelper (notSkip : Bool) (tag : SpConfig) (bits width : ℕ) :
    ℕ → List Ty → List Val → Bytes → Decoded (List Val)
  | _, [], _, bs => .done [] bs
  | i, t :: ts, xs, bs =>
    match varintForm tag t with
    | none =>
      (deserializeFastVarintHelper notSkip tag bits width i ts xs.tail bs).map
        (xs.headD .null :: ·)
    | some f =>
      (if bits.testBit i then deserializeOneFastVarint notSkip width f (xs.headD .null) bs
        else .done (xs.headD .null) bs).andThen (· :: xs.tail) fun x bs =>
          (deserializeFastVarintHelper notSkip tag bits width (i + 1) ts xs.tail bs).map (x :: ·)

/-- The varint members among the members of a struct. -/
def varintForms (tag : SpConfig) (ts : List Ty) : List VarintForm := ts.filterMap (varintForm tag)

/-- `deserialize_fast_varint`. -/
def deserializeFastVarint (notSkip : Bool) (tag : SpConfig) (ts : List Ty) (xs : List Val)
    (bs : Bytes) : Decoded (List Val) :=
  let cnt := (varintForms tag ts).length
  -- a struct without varint members is not compiled here; the loop passes over its members
  if cnt = 0 then deserializeFastVarintHelper notSkip tag 0 1 0 ts xs bs
  else
    withBytes (bitsetSize cnt) xs bs fun b rest =>
      let bits := ofLE b
      let width := (bits.testBit cnt).toNat + 2 * (bits.testBit (cnt + 1)).toNat
      if width = 3 ∧ ∀ f ∈ varintForms tag ts, f.size ≠ 8 then .fail .invalidBuffer xs rest
      else deserializeFastVarintHelper notSkip tag bits (2 ^ width) 0 ts xs rest

/-! ### Associative containers -/

/-- The key of an entry. -/
def entryKey (e : Val) : Val := e.items.headD .null

/-- `emplace`: an equivalent key that is there already stays, unless the container is a multi
container. An ordered container puts the element behind its equals; the order of a hashed
container is that of insertion. -/
def emplace (kind : AssociativeKind) (t : Ty) (key : Val → Val) (x : Val) (xs : List Val) :
    List Val :=
  if !kind.multi && xs.any fun y => Γ.keyEquivalent kind t (key y) (key x) then xs
  else if kind.hashed then xs ++ [x]
  else
    (xs.takeWhile fun y => !Γ.keyLess t (key x) (key y)) ++
      x :: xs.dropWhile fun y => !Γ.keyLess t (key x) (key y)

/-- The loop over the elements of a set: they are decoded into one object `value`, which each
`emplace` moves from. -/
def deserializeSet (read : Into Errc Bytes Val) (moved : Val → Val)
    (insert : Val → List Val → List Val) : ℕ → Val → List Val → Bytes → Decoded (List Val)
  | 0, _, xs, bs => .done xs bs
  | n + 1, value, xs, bs =>
    (read value bs).andThen (fun _ => xs) fun x bs =>
      deserializeSet read moved insert n (moved x) (insert x xs) bs

/-- How a map is filled. -/
structure MapFilling where
  /-- whether `try_emplace` finds the key -/
  holds : Val → List Val → Bool
  /-- a new entry -/
  insert : Val → List Val → List Val
  /-- the entry of a key that was found is skipped -/
  skipped : List Val → List Val

/-- The loop over the entries of a map: the key is decoded first, then the mapped value into
the new entry; `value` is where the mapped value of a key that was found is skipped. -/
def deserializeMap (readKey readMapped : Bytes → Decoded Val) (skipMapped : Into Errc Bytes Val)
    (fill : MapFilling) : ℕ → Val → List Val → Bytes → Decoded (List Val)
  | 0, _, es, bs => .done es bs
  | n + 1, value, es, bs =>
    (readKey bs).andThen (fun _ => es) fun k bs =>
      if fill.holds k es then
        (skipMapped value bs).andThen (fun _ => fill.skipped es) fun value bs =>
          deserializeMap readKey readMapped skipMapped fill n value (fill.skipped es) bs
      else
        (readMapped bs).andThen (fun m => fill.insert (.entry k m) es) fun m bs =>
          deserializeMap readKey readMapped skipMapped fill n value
            (fill.insert (.entry k m) es) bs

/-- Whether the reader records in which order it met the entries of a map, for the passes
over the versions. -/
def hasOrderRecord (kind : AssociativeKind) (k m : Ty) : Bool :=
  Γ.existCompatibleMember (.map kind k m) && (kind.hashed || !kind.multi)

/-- While a message is read, a map with an order record is the list of what was met: an entry,
or `null` for a key that was there. Entries from before are marked `engaged`. -/
def enterOrderRecord (es : List Val) : List Val :=
  es.filterMap fun e =>
    match e with
    | .null => none
    | .engaged e => some (.engaged e)
    | e => some (.engaged e)

/-- The entry behind a mark. -/
def unmarked : Val → Val
  | .engaged e => e
  | e => e

def mapFilling (kind : AssociativeKind) (k m : Ty) : MapFilling :=
  if Γ.hasOrderRecord kind k m then
    { holds := fun key es => !kind.multi &&
        es.any fun e => match e with
          | .null => false
          | e => Γ.keyEquivalent kind k (entryKey (unmarked e)) key
      insert := fun e es => es ++ [e]
      skipped := fun es => es ++ [.null] }
  else
    { holds := fun key es => !kind.multi && es.any fun e => Γ.keyEquivalent kind k (entryKey e) key
      insert := Γ.emplace kind k entryKey
      skipped := id }

/-! ### Derived classes -/

/-- The code of a class. Nobody looks at whether it could be read, and it stays 0 if not. -/
def readId (bs : Bytes) : UInt32 × Bytes :=
  match read 4 bs with
  | .ok (b, rest) => (UInt32.ofNat (ofLE b), rest)
  | .error _ => (0, bs)

/-! ### The payload pass -/

/-- The calls of `deserialize_one` that a step makes. -/
abbrev PayloadReader := Bool → SpConfig → Ty → Into Errc Bytes Val

/-- The elements of a sequence container. -/
def deserializeElements (read : PayloadReader) (notSkip : Bool) (kind : ContainerKind) (t : Ty)
    (item : Val) (size : ℕ) (bs : Bytes) : Decoded Val :=
  if kind.continuous && Γ.isTrivialSerializable t then
    -- the block is longer than any buffer when the product overflows `size_t`
    withBytes (size * Γ.sizeof t) item bs fun b rest =>
      .done (if notSkip then .list (splitBlock (Γ.sizeof t) size b) else item) rest
  else if notSkip then
    (appendNew (read notSkip SpConfig.DEFAULT t) (Γ.fresh t) size bs).map .list
  else
    (again (read notSkip SpConfig.DEFAULT t) size (Γ.fresh t) bs).map fun _ => item

/-- The elements of a set. -/
def deserializeKeys (read : PayloadReader) (notSkip : Bool) (kind : AssociativeKind) (t : Ty)
    (item : Val) (size : ℕ) (bs : Bytes) : Decoded Val :=
  if notSkip then
    (deserializeSet (read notSkip SpConfig.DEFAULT t) (Γ.movedFrom t) (Γ.emplace kind t id)
      size (Γ.fresh t) [] bs).map .list
  else if Γ.isTrivialSerializable t then
    withBytes (size * Γ.sizeof t) item bs fun _ rest => .done item rest
  else
    (again (read notSkip SpConfig.DEFAULT t) size (Γ.fresh t) bs).map fun _ => .list []

/-- The entries of a map. -/
def deserializeEntries (read : PayloadReader) (notSkip : Bool) (kind : AssociativeKind)
    (k m : Ty) (item : Val) (size : ℕ) (bs : Bytes) : Decoded Val :=
  if notSkip then
    let old := if Γ.hasOrderRecord kind k m then enterOrderRecord item.items else item.items
    (deserializeMap (read true SpConfig.DEFAULT k (Γ.fresh k))
      (read true SpConfig.DEFAULT m (Γ.fresh m)) (read false SpConfig.DEFAULT m)
      (Γ.mapFilling kind k m) size (Γ.fresh m) old bs).map .list
  else if Γ.isTrivialSerializable (.pair k m) then
    withBytes (size * Γ.sizeof (.pair k m)) item bs fun _ rest => .done item rest
  else
    (again (read notSkip SpConfig.DEFAULT (.pair k m)) size (Γ.fresh (.pair k m)) bs).map
      fun _ => item

/-- A member of a padded struct and the padding behind it. -/
def withPadding (read : Into Errc Bytes Val) (padding : ℕ) : Into Errc Bytes Val :=
  fun x bs =>
    (read x bs).andThen id fun x bs => withBytes padding x bs fun _ rest => .done x rest

/-- The class branch: pairs and structs. -/
def deserializeClass (read : PayloadReader) (notSkip : Bool) (t : Ty) (item : Val) (bs : Bytes) :
    Decoded Val :=
  if Γ.isTrivialSerializable t then readImage notSkip (Γ.sizeof t) item bs
  else if Γ.isTrivialIgnoringCompatible t then
    (each (List.zipWith (fun t p => withPadding (read notSkip SpConfig.DEFAULT t) p)
      (Γ.getTypes t) (Γ.paddingSize t).tail) item.items bs).map .list
  else
    let tag := Γ.getParentTag t
    let ts := Γ.getTypes t
    (if isEnableFastVarintCoding tag then deserializeFastVarint notSkip tag ts item.items bs
      else .done item.items bs).andThen .list fun xs bs =>
        (each (ts.map (read notSkip tag)) xs bs).map .list

/-- One step of `deserialize_one<size_type, UINT64_MAX, NotSkip, parent_tag>`, where `w` is
the width of the container lengths. -/
def deserializeStep (read : PayloadReader) (w : ℕ) (notSkip : Bool) (tag : SpConfig) :
    Ty → Into Errc Bytes Val
  | .trivialView t, item, bs => readImage true (Γ.sizeof t) item bs
  | .compatible _ _, item, bs => .done item bs
  | .monostate, item, bs => .done item bs
  | .varInt k, item, bs =>
    match varintForm tag (.varInt k) with
    | some f => deserializeVarintMember notSkip tag f item bs
    | none => .done item bs
  | .fundamental k, item, bs =>
    match varintForm tag (.fundamental k) with
    | some f => deserializeVarintMember notSkip tag f item bs
    | none => readImage notSkip k.size item bs
  | .enumeration _ k, item, bs => readImage notSkip k.size item bs
  | .uniquePtr t, item, bs =>
    withBytes 1 item bs fun b rest =>
      if ofLE b = 0 then .done item rest
      -- the code of the inner call is dropped
      else ((read notSkip SpConfig.DEFAULT t (Γ.fresh t) rest).map .engaged).dropCode
  | .polymorphic base, item, bs =>
    withBytes 1 item bs fun b rest =>
      if ofLE b = 0 then .done item rest
      else
        let (id, rest) := readId rest
        match Γ.searchDerived base id with
        | none => .fail .invalidBuffer item rest
        | some (index, t) =>
          (read notSkip SpConfig.DEFAULT t (Γ.fresh t) rest).map (.alt index)
  | .array t n, item, bs =>
    if Γ.isTrivialSerializable (.array t n) then readImage notSkip (Γ.sizeof (.array t n)) item bs
    else
      (each (List.replicate n (read notSkip SpConfig.DEFAULT t)) item.items bs).map .list
  | .container kind t, item, bs =>
    withLength w item bs (Γ.deserializeElements read notSkip kind t item)
  | .set kind t, item, bs => withLength w item bs (Γ.deserializeKeys read notSkip kind t item)
  | .map kind k m, item, bs =>
    withLength w item bs (Γ.deserializeEntries read notSkip kind k m item)
  | .tuple ts, item, bs =>
    (each (ts.map (read notSkip SpConfig.DEFAULT)) item.items bs).map .list
  | .optional t, item, bs =>
    withBytes 1 item bs fun b rest =>
      if ofLE b = 0 then .done item rest
      else ((read notSkip SpConfig.DEFAULT t (Γ.fresh t) rest).map .engaged).dropCode
  | .expected t e, item, bs =>
    withBytes 1 item bs fun b rest =>
      if ofLE b = 0 then
        ((read notSkip SpConfig.DEFAULT e (Γ.fresh e) rest).map (.alt 0)).dropCode
      else
        -- `item.value()` throws when the object holds an error
        match item with
        | .alt 1 v => ((read notSkip SpConfig.DEFAULT t v rest).map (.alt 1)).dropCode
        | _ => .throws
  | .variant ts, item, bs =>
    withBytes 1 item bs fun b rest =>
      match ts[ofLE b]? with
      | none => .fail .invalidBuffer item rest
      | some t =>
        ((read notSkip SpConfig.DEFAULT t (Γ.fresh t) rest).map (.alt (ofLE b))).dropCode
  | .pair a b, item, bs => Γ.deserializeClass read notSkip (.pair a b) item bs
  | .struct name, item, bs => Γ.deserializeClass read notSkip (.struct name) item bs

/-- `deserialize_one<size_type, UINT64_MAX, NotSkip, parent_tag>` with calls nested at most
`fuel` deep. -/
def deserializeOne : ℕ → ℕ → Bool → SpConfig → Ty → Into Errc Bytes Val
  | 0, _, _, _, _ => fun _ _ => .tooDeep
  | fuel + 1, w, notSkip, tag, t => Γ.deserializeStep (deserializeOne fuel w) w notSkip tag t

end TypeEnv

end Yalantinglibs.StructPack
