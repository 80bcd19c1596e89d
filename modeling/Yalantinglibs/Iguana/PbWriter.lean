import Yalantinglibs.Iguana.PbType

/-!
# The writer of struct_pb

The two passes of `to_pb`: `pb_key_value_size` of `iguana/pb_util.hpp` computes the size of a
message and records those of the messages inside of it, and `to_pb_impl` of
`iguana/pb_writer.hpp` writes it, taking these sizes one after the other.

## Main definitions

* `Sizes`, `pbKeyValueSize` — the first pass
* `Chunk`, `Writes`, `toPbImpl` — the second pass
* `toPb` — both

A message that inherits from `base` keeps its size in `cache_size`, where the first pass leaves it
and the second finds it; it is computed again here. A `std::size_t` is 64 bits wide.
-/

set_option autoImplicit false

namespace Yalantinglibs.Iguana.Pb

open ByteCodec

/-! ### Sizes of numbers and texts -/

/-- `variant_uint32_size_constexpr`. -/
def variantUint32SizeConstexpr (key : ℕ) : ℕ := key.log2 / 7 + 1

/-- `variant_uint32_size`. -/
def variantUint32Size (n : BitVec 32) : BitVec 64 :=
  BitVec.ofNat 64 (((n.toNat ||| 1).log2 * 9 + 73) / 64)

/-- `variant_uint64_size`. -/
def variantUint64Size (n : BitVec 64) : BitVec 64 :=
  BitVec.ofNat 64 (((n.toNat ||| 1).log2 * 9 + 73) / 64)

/-- `variant_intergal_size`. -/
def variantIntergalSize (w : Width) (signed : Bool) (u : BitVec 64) : BitVec 64 :=
  if w = .w64 then variantUint64Size u
  else if signed && u.msb then 10
  else variantUint32Size (u.setWidth 32)

/-- `str_numeric_size` of a number, without a key. -/
def Num.size : Num → BitVec 64 → BitVec 64
  | .bool, _ => 1
  | .integral w signed, u | .enumeration w signed, u => variantIntergalSize w signed u
  | .sint32, u => variantUint32Size (encodeZigzag (u.setWidth 32))
  | .sint64, u => variantUint64Size (encodeZigzag u)
  | k, _ => BitVec.ofNat 64 k.width

/-- `str_numeric_size` of a number. -/
def numericSize (keySize : ℕ) (omitDefaultVal : Bool) (k : Num) (u : BitVec 64) : BitVec 64 :=
  if omitDefaultVal && k.isZero u then 0 else BitVec.ofNat 64 keySize + k.size u

/-- `str_numeric_size` of a text. -/
def strSize (keySize : ℕ) (omitDefaultVal : Bool) (s : Bytes) : BitVec 64 :=
  if omitDefaultVal && s.isEmpty then 0
  else if keySize = 0 then BitVec.ofNat 64 s.length
  else BitVec.ofNat 64 keySize + variantUint32Size (BitVec.ofNat 32 s.length) +
    BitVec.ofNat 64 s.length

/-- The size of packed items. -/
def packedSize (t : Ty) (vs : List Val) : BitVec 64 :=
  (vs.map fun v =>
    match t, v with
    | .num k, .num u => numericSize 0 false k u
    | _, _ => 0).sum

/-! ### The first pass -/

/-- A size, and the entries that are appended to `size_arr` on the way. -/
abbrev Sizes := BitVec 64 × List (BitVec 32)

def Sizes.add (a b : Sizes) : Sizes := (a.1 + b.1, a.2 ++ b.2)

/-- A size in front of what has it. -/
def lenSize (len : BitVec 64) : BitVec 64 := variantUint32Size (len.setWidth 32) + len

/-- `pb_oneof_size` returns an `int`. -/
def oneofSize (a : Sizes) : Sizes := ((a.1.setWidth 32).signExtend 64, a.2)

mutual

/-- `pb_key_value_size`, within a message. -/
def pbKeyValueSize (S : Schema) : Val → Ty → ℕ → Bool → Sizes
  | .num u, .num k, keySize, omitDefaultVal => (numericSize keySize omitDefaultVal k u, [])
  | .str s, .string, keySize, omitDefaultVal => (strSize keySize omitDefaultVal s, [])
  | .list vs, .message id, keySize, _ =>
    let len := membersSize S vs (S.message id).members
    -- the entry is pushed in front of those of the members, and set behind them
    (BitVec.ofNat 64 keySize + (if len.1 = 0 then 1 else lenSize len.1),
      if (S.message id).base then len.2 else len.1.setWidth 32 :: len.2)
  | .list vs, .sequence t, keySize, _ =>
    if t.isLenprefixed then itemsSize S vs t keySize
    else
      (if packedSize t vs = 0 then 0 else BitVec.ofNat 64 keySize + lenSize (packedSize t vs), [])
  | .list es, .map k m, keySize, _ => entriesSize S es k m keySize
  | .some v, .optional t, keySize, omitDefaultVal =>
    pbKeyValueSize S v t keySize omitDefaultVal
  | _, _, _, _ => (0, [])

/-- The items of a sequence. -/
def itemsSize (S : Schema) : List Val → Ty → ℕ → Sizes
  | [], _, _ => (0, [])
  | v :: vs, t, keySize => (pbKeyValueSize S v t keySize false).add (itemsSize S vs t keySize)

/-- The entries of a map. -/
def entriesSize (S : Schema) : List Val → Ty → Ty → ℕ → Sizes
  | .pair x y :: es, k, m, keySize =>
    let kv := (pbKeyValueSize S x k 1 false).add (pbKeyValueSize S y m 1 false)
    Sizes.add (BitVec.ofNat 64 keySize + lenSize kv.1, kv.2) (entriesSize S es k m keySize)
  | _, _, _, _ => (0, [])

/-- The members of a message. -/
def membersSize (S : Schema) : List Val → List Member → Sizes
  | v :: vs, m :: ms =>
    Sizes.add
      (match m.ty, v with
      | .plain t, v =>
        pbKeyValueSize S v t (variantUint32SizeConstexpr (keyOf m.fieldNo t)) true
      | .oneof ts, .alt a v =>
        match ts[a]? with
        | some t => oneofSize
            (pbKeyValueSize S v t (variantUint32SizeConstexpr (keyOf (m.fieldNo + a) t)) false)
        | none => (0, [])
      | .oneof _, _ => (0, []))
      (membersSize S vs ms)
  | _, _ => (0, [])

end

/-! ### What is written -/

/-- `serialize_varint_u32`, for the keys: no byte of it has the high bit set on purpose. -/
def serializeVarintU32 (key : ℕ) : Bytes :=
  (List.range (variantUint32SizeConstexpr key)).map fun i => UInt8.ofNat (key >>> (7 * i))

/-- A number, without a key. -/
def Num.bytes (k : Num) (u : BitVec 64) : Bytes :=
  match k.wireType with
  | .varint => varintBytes 9 (k.word u)
  | _ => toLE k.width u.toNat

/-- Packed items. -/
def packedBytes (t : Ty) (vs : List Val) : Bytes :=
  vs.flatMap fun v =>
    match t, v with
    | .num k, .num u => k.bytes u
    | _, _ => []

/-- A piece of the output: bytes, or a size in front of what is due to have it. -/
inductive Chunk
  | raw (b : Bytes)
  | delimited (size : ℕ) (body : List Chunk)

mutual

def Chunk.bytes : Chunk → Bytes
  | .raw b => b
  | .delimited size body => varintBytes 9 size ++ bytesOf body

def bytesOf : List Chunk → Bytes
  | [] => []
  | c :: cs => c.bytes ++ bytesOf cs

end

/-- What `sz_ptr` has in front of it. -/
abbrev Ptr := List (BitVec 32)

/-- Writing moves the pointer; it stops where the pointer is read behind the end of `size_arr`. -/
abbrev Writes := Ptr → Option (List Chunk × Ptr)

namespace Writes

def done : Writes := fun ptr => some ([], ptr)

def emit (c : Chunk) : Writes := fun ptr => some ([c], ptr)

def andThen (f g : Writes) : Writes := fun ptr =>
  match f ptr with
  | none => none
  | some (cs, ptr) => (g ptr).map fun p => (cs ++ p.1, p.2)

/-- A size, and what is written behind it. -/
def delimited (size : ℕ) (body : Writes) : Writes := fun ptr =>
  (body ptr).map fun p => ([.delimited size p.1], p.2)

end Writes

open Writes

/-- `pb_value_size`. -/
def pbValueSize (S : Schema) : Bool → Val → Ty → Ptr → Option (BitVec 64 × Ptr)
  | _, .num u, .num k, ptr => some (numericSize 0 false k u, ptr)
  | _, .str s, .string, ptr => some (strSize 0 false s, ptr)
  | skipNext, .list vs, .message id, ptr =>
    if (S.message id).base then some ((membersSize S vs (S.message id).members).1, ptr)
    else
      match ptr with
      | [] => none
      | n :: ptr' => some (n.setWidth 64, if skipNext then ptr' else n :: ptr')
  | _, .list vs, .sequence t, ptr => some (packedSize t vs, ptr)
  -- `skip_next` is not passed on
  | _, .some v, .optional t, ptr => pbValueSize S true v t ptr
  | _, _, _, ptr => some (0, ptr)

/-- `encode_pair_value`, with `to_pb_impl` of the value. -/
def encodePairValue (key : ℕ) (size : BitVec 64) (impl : Writes) : Writes :=
  if size = 0 then (emit (.raw (serializeVarintU32 key))).andThen (emit (.delimited 0 []))
  else impl

/-- The length of an entry of a map. -/
def pairLen (k m : Ty) (kLen vLen : BitVec 64) : BitVec 64 :=
  BitVec.ofNat 64 (variantUint32SizeConstexpr (keyOf 1 k)) +
    BitVec.ofNat 64 (variantUint32SizeConstexpr (keyOf 2 m)) + kLen + vLen +
    (if k.isLenprefixed then variantUint32Size (kLen.setWidth 32) else 0) +
    (if m.isLenprefixed then variantUint32Size (vLen.setWidth 32) else 0)

mutual

/-- `to_pb_impl`, within a message. -/
def toPbImpl (S : Schema) : Val → Ty → ℕ → Bool → Writes
  | .num u, .num k, key, omitDefaultVal =>
    if omitDefaultVal && k.isZero u then done
    else (emit (.raw (if key = 0 then [] else serializeVarintU32 key))).andThen
      (emit (.raw (k.bytes u)))
  | .str s, .string, key, omitDefaultVal =>
    if omitDefaultVal && s.isEmpty then done
    else (emit (.raw (serializeVarintU32 key))).andThen (emit (.delimited s.length [.raw s]))
  | .list vs, .message id, key, _ => fun ptr =>
    match pbValueSize S true (.list vs) (.message id) ptr with
    | none => none
    | some (len, ptr) =>
      (emit (.raw (serializeVarintU32 key))).andThen
        (if len = 0 then emit (.delimited 0 [])
        else delimited len.toNat (toPbMembers S vs (S.message id).members)) ptr
  | .list vs, .sequence t, key, _ =>
    if t.isLenprefixed then toPbItems S vs t key
    else if vs.isEmpty then done
    else (emit (.raw (serializeVarintU32 key))).andThen
      (emit (.delimited (packedSize t vs).toNat [.raw (packedBytes t vs)]))
  | .list es, .map k m, key, _ => toPbEntries S es k m key
  | .some v, .optional t, key, omitDefaultVal => toPbImpl S v t key omitDefaultVal
  | _, _, _, _ => done

/-- The items of a sequence. -/
def toPbItems (S : Schema) : List Val → Ty → ℕ → Writes
  | [], _, _ => done
  | v :: vs, t, key => (toPbImpl S v t key false).andThen (toPbItems S vs t key)

/-- The entries of a map. -/
def toPbEntries (S : Schema) : List Val → Ty → Ty → ℕ → Writes
  | .pair x y :: es, k, m, key => fun ptr =>
    match pbValueSize S true x k ptr, pbValueSize S false y m ptr with
    | some (kLen, _), some (vLen, ptr) =>
      ((emit (.raw (serializeVarintU32 key))).andThen
        ((delimited (pairLen k m kLen vLen).toNat
          ((encodePairValue (keyOf 1 k) kLen (toPbImpl S x k (keyOf 1 k) false)).andThen
            (encodePairValue (keyOf 2 m) vLen (toPbImpl S y m (keyOf 2 m) false)))).andThen
          (toPbEntries S es k m key))) ptr
    | _, _ => none
  | _, _, _, _ => done

/-- The members of a message; `to_pb_oneof`. -/
def toPbMembers (S : Schema) : List Val → List Member → Writes
  | v :: vs, m :: ms =>
    andThen
      (match m.ty, v with
      | .plain t, v => toPbImpl S v t (keyOf m.fieldNo t) true
      | .oneof ts, .alt a v =>
        match ts[a]? with
        | some t => toPbImpl S v t (keyOf (m.fieldNo + a) t) false
        | none => done
      | .oneof _, _ => done)
      (toPbMembers S vs ms)
  | _, _ => done

end

/-- `to_pb`: the output is resized to the size of the first pass, and the second pass fills it.
There is no output if that reads behind the end of `size_arr`, writes behind the end of the output,
or leaves some of it. -/
def toPb (S : Schema) (id : ℕ) (v : Val) : Option Bytes :=
  let byteLen := membersSize S v.items (S.message id).members
  match toPbMembers S v.items (S.message id).members byteLen.2 with
  | none => none
  | some (cs, _) =>
    if BitVec.ofNat 64 (bytesOf cs).length = byteLen.1 then some (bytesOf cs) else none

end Yalantinglibs.Iguana.Pb
