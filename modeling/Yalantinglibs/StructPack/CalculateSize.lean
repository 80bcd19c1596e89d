import Yalantinglibs.StructPack.Value
import Yalantinglibs.StructPack.FastVarint
import Yalantinglibs.StructPack.TypeCalculate

/-!
# The size of a message

`calculate_size.hpp`: before a value is written, its size is computed, and with it the
width of the container lengths and the metainfo byte of the header.

## Main definitions

* `SizeInfo` — payload bytes without container lengths, number of containers, largest length
* `TypeEnv.calculateOneSize`, `TypeEnv.calculatePayloadSize`
* `TypeEnv.getSerializeRuntimeInfo` — the size of the message and its metainfo byte
-/

set_option autoImplicit false

namespace Yalantinglibs.StructPack

/-- `size_info`. -/
@[ext]
structure SizeInfo where
  total : ℕ
  sizeCnt : ℕ
  maxSize : ℕ
  deriving DecidableEq, Repr

namespace SizeInfo

instance : Zero SizeInfo := ⟨0, 0, 0⟩

instance : Add SizeInfo :=
  ⟨fun a b => ⟨a.total + b.total, a.sizeCnt + b.sizeCnt, max a.maxSize b.maxSize⟩⟩

/-- Bytes without containers. -/
def ofTotal (n : ℕ) : SizeInfo := ⟨n, 0, 0⟩

@[simp] theorem zero_total : (0 : SizeInfo).total = 0 := rfl
@[simp] theorem zero_sizeCnt : (0 : SizeInfo).sizeCnt = 0 := rfl
@[simp] theorem zero_maxSize : (0 : SizeInfo).maxSize = 0 := rfl
@[simp] theorem add_total (a b : SizeInfo) : (a + b).total = a.total + b.total := rfl
@[simp] theorem add_sizeCnt (a b : SizeInfo) : (a + b).sizeCnt = a.sizeCnt + b.sizeCnt := rfl
@[simp] theorem add_maxSize (a b : SizeInfo) : (a + b).maxSize = max a.maxSize b.maxSize := rfl
@[simp] theorem ofTotal_total (n : ℕ) : (ofTotal n).total = n := rfl
@[simp] theorem ofTotal_sizeCnt (n : ℕ) : (ofTotal n).sizeCnt = 0 := rfl
@[simp] theorem ofTotal_maxSize (n : ℕ) : (ofTotal n).maxSize = 0 := rfl

/-- The bytes when each container length takes `w` bytes. -/
def bytes (w : ℕ) (s : SizeInfo) : ℕ := s.total + s.sizeCnt * w

@[simp] theorem bytes_zero (w : ℕ) : bytes w 0 = 0 := by simp [bytes]

@[simp] theorem bytes_ofTotal (w n : ℕ) : bytes w (ofTotal n) = n := by simp [bytes]

@[simp] theorem bytes_add (w : ℕ) (a b : SizeInfo) : bytes w (a + b) = bytes w a + bytes w b := by
  simp only [bytes, add_total, add_sizeCnt, Nat.add_mul]
  omega

end SizeInfo

namespace TypeEnv

variable (Γ : TypeEnv)

/-- The size of the object behind a `trivial_view`. -/
def calculateTrivialSize : Ty → SizeInfo
  | .monostate => 0
  | t => .ofTotal (Γ.sizeof t)

/-- The size of a member that `varint_t` holds of. -/
def calculateVarintMember (tag : SpConfig) (f : VarintForm) (b : Bytes) : SizeInfo :=
  -- in fast mode the member is part of the block of its parent
  if isEnableFastVarintCoding tag then 0 else .ofTotal (calculateVarintSize f b)

/-- `trivially_copyable_container` of a sequence container. -/
def isTriviallyCopyable (kind : ContainerKind) (t : Ty) : Bool :=
  kind.continuous && Γ.isTrivialSerializable t

/-- The size of a class object, from the size of its members under a parent tag. -/
def calculateClassSize (t : Ty) (xs : List Val) (payload : SpConfig → SizeInfo) : SizeInfo :=
  if Γ.isTrivialSerializable t then .ofTotal (Γ.sizeof t)
  else if Γ.isTrivialIgnoringCompatible t then
    payload SpConfig.DEFAULT + .ofTotal (Γ.totalPaddingSize t)
  else
    let tag := Γ.getParentTag t
    (if isEnableFastVarintCoding tag then
      SizeInfo.ofTotal (calculateFastVarintSize (varintMembers tag (Γ.getTypes t) xs))
    else 0) + payload tag

mutual

/-- `calculate_one_size<T, parent_tag>`. -/
def calculateOneSize (tag : SpConfig) : Ty → Val → SizeInfo
  | .monostate, _ => 0
  | .varInt k, v =>
    match varintForm tag (.varInt k) with
    | some f => calculateVarintMember tag f v.repr
    | none => 0
  | .fundamental k, v =>
    match varintForm tag (.fundamental k) with
    | some f => calculateVarintMember tag f v.repr
    | none => .ofTotal k.size
  | .enumeration _ k, _ => .ofTotal k.size
  | .trivialView t, _ => Γ.calculateTrivialSize t
  | .array t n, .bytes _ => .ofTotal (Γ.sizeof (.array t n))
  | .array t _, .list xs => calculateAllSize t xs
  | .container kind t, .list xs =>
    ⟨0, 1, xs.length⟩ +
      if Γ.isTriviallyCopyable kind t then .ofTotal (xs.length * Γ.sizeof t)
      else calculateAllSize t xs
  | .set _ t, .list xs => ⟨0, 1, xs.length⟩ + calculateAllSize t xs
  | .map _ k m, .list xs => ⟨0, 1, xs.length⟩ + calculateAllSize (.pair k m) xs
  | .tuple ts, .list xs => calculatePayloadSize SpConfig.DEFAULT ts xs
  | .optional _, .null => .ofTotal 1
  | .optional t, .engaged v => .ofTotal 1 + calculateOneSize SpConfig.DEFAULT t v
  | .compatible _ _, .null => .ofTotal 1
  | .compatible t _, .engaged v => .ofTotal 1 + calculateOneSize SpConfig.DEFAULT t v
  | .uniquePtr _, .null => .ofTotal 1
  | .uniquePtr t, .engaged v => .ofTotal 1 + calculateOneSize SpConfig.DEFAULT t v
  | .polymorphic _, .null => .ofTotal 1
  | .polymorphic base, .alt i v =>
    .ofTotal 1 +
      match Γ.dispatch base i with
      | some (_, t) => .ofTotal 4 + calculateOneSize SpConfig.DEFAULT t v
      -- an illegal code is thrown
      | none => 0
  | .variant ts, .alt i v =>
    .ofTotal 1 +
      match ts[i]? with
      | some t => calculateOneSize SpConfig.DEFAULT t v
      | none => 0
  | .expected t e, .alt i v =>
    .ofTotal 1 + calculateOneSize SpConfig.DEFAULT (if i = 1 then t else e) v
  | .pair a b, .bytes _ => .ofTotal (Γ.sizeof (.pair a b))
  | .pair a b, .list xs =>
    Γ.calculateClassSize (.pair a b) xs fun tag => calculatePayloadSize tag [a, b] xs
  | .struct name, .bytes _ => .ofTotal (Γ.sizeof (.struct name))
  | .struct name, .list xs =>
    Γ.calculateClassSize (.struct name) xs fun tag =>
      calculatePayloadSize tag (Γ.fields name) xs
  | _, _ => 0

/-- The sizes of the elements of a container, added up. -/
def calculateAllSize (t : Ty) : List Val → SizeInfo
  | [] => 0
  | x :: xs => calculateOneSize SpConfig.DEFAULT t x + calculateAllSize t xs

/-- `calculate_payload_size<parent_tag>`. -/
def calculatePayloadSize (tag : SpConfig) : List Ty → List Val → SizeInfo
  | t :: ts, x :: xs => calculateOneSize tag t x + calculatePayloadSize tag ts xs
  | _, _ => 0

end

end TypeEnv

/-! ### The message -/

/-- `serialize_buffer_size`. -/
structure SerializeBufferSize where
  len : ℕ
  metainfo : ℕ
  deriving DecidableEq, Repr

/-- The class of the container lengths: they take `2 ^ widthClass` bytes. -/
def widthClass (maxSize : ℕ) : ℕ :=
  if maxSize < 2 ^ 8 then 0
  else if maxSize < 2 ^ 16 then 1
  else if maxSize < 2 ^ 32 then 2
  else 3

namespace TypeEnv

variable (Γ : TypeEnv)

/-- The width class of a message; `0` where the type holds no container. -/
def messageWidthClass (ts : List Ty) (xs : List Val) : ℕ :=
  if Γ.checkIfHasContainer (getArgsType ts) then
    widthClass (Γ.calculatePayloadSize SpConfig.DEFAULT ts xs).maxSize
  else 0

/-- The size without the hash, the literal and the length field: payload, container lengths
and the metainfo byte, which a width class other than `0` calls for. -/
def lenBeforeHash (conf : SpConfig) (ts : List Ty) (xs : List Val) : ℕ :=
  (if Γ.checkHasMetainfo conf (getArgsType ts) || Γ.messageWidthClass ts xs ≠ 0 then 1 else 0) +
    if Γ.checkIfHasContainer (getArgsType ts) then
      (Γ.calculatePayloadSize SpConfig.DEFAULT ts xs).bytes (2 ^ Γ.messageWidthClass ts xs)
    else (Γ.calculatePayloadSize SpConfig.DEFAULT ts xs).total

/-- The class of the length field: it takes `2 ^ lengthClass` bytes, and `len` counts
everything else. -/
def lengthClass (len : ℕ) : ℕ :=
  if len + 2 < 2 ^ 16 then 1
  else if len + 4 < 2 ^ 32 then 2
  else 3

/-- `get_serialize_runtime_info<conf>`. -/
def getSerializeRuntimeInfo (conf : SpConfig) (ts : List Ty) (xs : List Val) :
    SerializeBufferSize :=
  let type := getArgsType ts
  let len := Γ.lenBeforeHash conf ts xs
  let metainfo := Γ.messageWidthClass ts xs <<< 3
  if Γ.checkIfDisableHashHead conf type then ⟨len, metainfo⟩
  else
    let len := len + 4
    let (len, metainfo) :=
      if Γ.checkIfAddTypeLiteral conf type then
        (len + (Γ.getTypeLiteral type).length + 1, metainfo ||| 0b100)
      else (len, metainfo)
    if Γ.existCompatibleMember type then
      ⟨len + 2 ^ lengthClass len, metainfo ||| lengthClass len⟩
    else ⟨len, metainfo⟩

end TypeEnv

end Yalantinglibs.StructPack
