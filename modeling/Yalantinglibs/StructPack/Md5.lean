import Yalantinglibs.Data.ByteCodec

/-!
# The hash of a type literal

`MD5Hash32Constexpr` of `md5_constexpr.hpp`: the first four bytes of the MD5 digest as a
big-endian number. The results about the format hold for whatever it returns.
-/

set_option autoImplicit false

namespace Yalantinglibs.StructPack.MD5

/-- `kConstants`. -/
def kConstants : List UInt32 :=
  [0xd76aa478, 0xe8c7b756, 0x242070db, 0xc1bdceee, 0xf57c0faf, 0x4787c62a, 0xa8304613,
   0xfd469501, 0x698098d8, 0x8b44f7af, 0xffff5bb1, 0x895cd7be, 0x6b901122, 0xfd987193,
   0xa679438e, 0x49b40821, 0xf61e2562, 0xc040b340, 0x265e5a51, 0xe9b6c7aa, 0xd62f105d,
   0x02441453, 0xd8a1e681, 0xe7d3fbc8, 0x21e1cde6, 0xc33707d6, 0xf4d50d87, 0x455a14ed,
   0xa9e3e905, 0xfcefa3f8, 0x676f02d9, 0x8d2a4c8a, 0xfffa3942, 0x8771f681, 0x6d9d6122,
   0xfde5380c, 0xa4beea44, 0x4bdecfa9, 0xf6bb4b60, 0xbebfbc70, 0x289b7ec6, 0xeaa127fa,
   0xd4ef3085, 0x04881d05, 0xd9d4d039, 0xe6db99e5, 0x1fa27cf8, 0xc4ac5665, 0xf4292244,
   0x432aff97, 0xab9423a7, 0xfc93a039, 0x655b59c3, 0x8f0ccc92, 0xffeff47d, 0x85845dd1,
   0x6fa87e4f, 0xfe2ce6e0, 0xa3014314, 0x4e0811a1, 0xf7537e82, 0xbd3af235, 0x2ad7d2bb,
   0xeb86d391]

/-- `kShifts`. -/
def kShifts : List UInt32 := [7, 12, 17, 22, 5, 9, 14, 20, 4, 11, 16, 23, 6, 10, 15, 21]

/-- The four words mixed in a round. -/
structure IntermediateData where
  a : UInt32
  b : UInt32
  c : UInt32
  d : UInt32

def kInitialIntermediateData : IntermediateData :=
  ⟨0x67452301, 0xefcdab89, 0x98badcfe, 0x10325476⟩

/-- `GetPaddedMessageLength`. -/
def paddedMessageLength (n : ℕ) : ℕ := ((n + 1 + 8) + 63) / 64 * 64

/-- `GetPaddedMessageByte`. -/
def paddedMessageByte (data : Bytes) (m i : ℕ) : UInt32 :=
  let n := data.length
  if i < n then UInt32.ofNat (data.getD i 0).toNat
  else if i = n then 0x80
  else if m - 8 ≤ i then UInt32.ofNat (((n * 8) >>> ((i - (m - 8)) * 8)) % 256)
  else 0

/-- `GetPaddedMessageWord`. -/
def paddedMessageWord (data : Bytes) (m i : ℕ) : UInt32 :=
  paddedMessageByte data m i ||| (paddedMessageByte data m (i + 1) <<< 8) |||
    (paddedMessageByte data m (i + 2) <<< 16) ||| (paddedMessageByte data m (i + 3) <<< 24)

/-- `CalcF`. -/
def calcF (i : ℕ) (x : IntermediateData) : UInt32 :=
  if i < 16 then x.d ^^^ (x.b &&& (x.c ^^^ x.d))
  else if i < 32 then x.c ^^^ (x.d &&& (x.b ^^^ x.c))
  else if i < 48 then x.b ^^^ x.c ^^^ x.d
  else x.c ^^^ (x.b ||| ~~~x.d)

/-- `CalcG`. -/
def calcG (i : ℕ) : ℕ :=
  if i < 16 then i
  else if i < 32 then (5 * i + 1) % 16
  else if i < 48 then (3 * i + 5) % 16
  else 7 * i % 16

/-- `GetShift`. -/
def shift (i : ℕ) : UInt32 := kShifts.getD (i / 16 * 4 + i % 4) 0

/-- `LeftRotate`. -/
def leftRotate (value bits : UInt32) : UInt32 := (value <<< bits) ||| (value >>> (32 - bits))

/-- `ApplyStep` on the 64-byte round that starts at `offset`. -/
def applyStep (data : Bytes) (m offset i : ℕ) (x : IntermediateData) : IntermediateData :=
  let f := calcF i x + x.a + kConstants.getD i 0 + paddedMessageWord data m (offset + 4 * calcG i)
  ⟨x.d, x.b + leftRotate f (shift i), x.b, x.c⟩

/-- `Add`. -/
def add (x y : IntermediateData) : IntermediateData :=
  ⟨x.a + y.a, x.b + y.b, x.c + y.c, x.d + y.d⟩

/-- `ProcessMessage`. -/
def processMessage (data : Bytes) : IntermediateData :=
  let m := paddedMessageLength data.length
  (List.range (m / 64)).foldl (fun x round =>
    add x ((List.range 64).foldl (fun y i => applyStep data m (64 * round) i y) x))
    kInitialIntermediateData

/-- `SwapEndian`. -/
def swapEndian (a : UInt32) : UInt32 :=
  ((a &&& 0xff) <<< 24) ||| (((a >>> 8) &&& 0xff) <<< 16) ||| (((a >>> 16) &&& 0xff) <<< 8) |||
    ((a >>> 24) &&& 0xff)

/-- `MD5Hash32Constexpr`. -/
def hash32 (data : Bytes) : UInt32 := swapEndian (processMessage data).a

end Yalantinglibs.StructPack.MD5
