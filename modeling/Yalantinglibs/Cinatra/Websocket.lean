import Mathlib.Data.List.Basic
import Yalantinglibs.Data.ByteCodec

/-!
# WebSocket frames

The frame codec, `websocket.hpp` and `ws_define.h`: the header of a frame, how a `websocket` object
writes it, and how it parses one of which more and more bytes are there.

One object serves both directions of a connection. The length of the header that is awaited, the
mask key and the length of the payload stay in it from one frame to the next.

## Main definitions

* `FrameHeader` — the first two bytes of a frame
* `Websocket` — the object, with the state it keeps between frames
* `parseHeader`, `parsePayload` — the reading side
* `encodeWsHeader`, `encodeFrame` — the writing side

## Main results

* `parseHeader_incomplete`, `parseHeader_complete` — what is parsed from the first bytes of a
  header, and from all of it
* `maskPayload_maskPayload` — the mask is taken off by putting it on again
* `parsePayload_eq` — a payload is unmasked as a whole
-/

set_option autoImplicit false

namespace Yalantinglibs.Cinatra

open ByteCodec

/-! ### Constants -/

/-- `opcode`. -/
inductive Opcode
  | cont | text | binary | rsv3 | rsv4 | rsv5 | rsv6 | rsv7
  | close | ping | pong | crsvb | crsvc | crsvd | crsve | crsvf
  deriving DecidableEq, Repr

/-- The value of an enumerator, which fits the four bits it has in a header. -/
def Opcode.value : Opcode → BitVec 4
  | .cont => 0
  | .text => 1
  | .binary => 2
  | .rsv3 => 3
  | .rsv4 => 4
  | .rsv5 => 5
  | .rsv6 => 6
  | .rsv7 => 7
  | .close => 8
  | .ping => 9
  | .pong => 10
  | .crsvb => 11
  | .crsvc => 12
  | .crsvd => 13
  | .crsve => 14
  | .crsvf => 15

/-- `ws_header_status`. -/
inductive WsHeaderStatus
  | error | complete | incomplete
  deriving DecidableEq, Repr

/-- `ws_head_len`. -/
inductive WsHeadLen
  | shortHeader | mediumHeader | longHeader | invalidHeader
  deriving DecidableEq, Repr

/-- The length of a header with a mask key. -/
def WsHeadLen.bytes : WsHeadLen → ℕ
  | .shortHeader => 6
  | .mediumHeader => 8
  | .longHeader => 14
  | .invalidHeader => 15

/-- `client_ws_head_len`: the length of a header without one. -/
def WsHeadLen.clientBytes : WsHeadLen → ℕ
  | .shortHeader => 2
  | .mediumHeader => 4
  | .longHeader => 10
  | .invalidHeader => 11

/-- `ws_frame_type`, those that `parse_payload` returns. -/
inductive WsFrameType
  | error | incompleteText | incompleteBinary | text | binary | close | ping | pong
  deriving DecidableEq, Repr

/-! ### The header -/

/-- `frame_header`. -/
structure FrameHeader where
  opcode : BitVec 4
  rsv3 : Bool
  rsv2 : Bool
  rsv1 : Bool
  fin : Bool
  len : BitVec 7
  mask : Bool
  deriving DecidableEq, Repr

/-- The bit-fields fill their bytes from the low end. -/
def FrameHeader.toBytes (hdr : FrameHeader) : Bytes :=
  [⟨BitVec.ofBool hdr.fin ++ BitVec.ofBool hdr.rsv1 ++ BitVec.ofBool hdr.rsv2 ++
      BitVec.ofBool hdr.rsv3 ++ hdr.opcode⟩,
    ⟨BitVec.ofBool hdr.mask ++ hdr.len⟩]

@[simp] theorem FrameHeader.toBytes_length (hdr : FrameHeader) : hdr.toBytes.length = 2 := rfl

/-- `htons` and `htobe64`: a word of `w` bytes in network order. -/
def toBE (w n : ℕ) : Bytes := (toLE w n).reverse

/-- `ntohs` and `be64toh`. -/
def ofBE (bs : Bytes) : ℕ := ofLE bs.reverse

/-- Subtraction in `size_t`. -/
def sizeSub (a b : ℕ) : ℕ := (a + 2 ^ 64 - b) % 2 ^ 64

/-! ### Masking -/

/-- `mask_key_[i % 4]`. -/
def maskByte (maskKey : UInt32) (i : ℕ) : UInt8 := (toLE 4 maskKey.toNat).getD (i % 4) 0

/-- Every byte with the byte of the key that is its turn. -/
def maskPayload (maskKey : UInt32) (data : Bytes) : Bytes :=
  data.mapIdx fun i b => b ^^^ maskByte maskKey i

/-! ### The object -/

/-- `websocket`. The four bytes of `mask_key_` are the little-endian word, and `msg_header_` is the
header that was written last. -/
structure Websocket where
  payloadLength : ℕ := 0
  leftHeaderLen : ℕ := 2
  maskKey : UInt32 := 0
  msgOpcode : UInt8 := 0
  msgFin : UInt8 := 0
  msgHeader : Bytes := []
  lenBytes : WsHeadLen := .shortHeader
  deriving DecidableEq, Repr

/-- `reset_len_bytes`. -/
def Websocket.resetLenBytes (ws : Websocket) : Websocket := { ws with lenBytes := .shortHeader }

/-- The length of a header of a class, for the side that reads it. -/
def WsHeadLen.awaited (isServer : Bool) (len : WsHeadLen) : ℕ :=
  if isServer then len.bytes else len.clientBytes

/-- The mask key of a header is taken where there is one, and stays what it was elsewhere. -/
def Websocket.copyMask (ws : Websocket) (msgMasked : UInt8) (inp : Bytes) : Websocket :=
  if msgMasked ≠ 0 then { ws with maskKey := .ofNat (ofLE (inp.take 4)) } else ws

/-- `parse_header`, over the bytes `buf` points to. -/
def parseHeader (ws : Websocket) (buf : Bytes) (size : ℕ) (isServer : Bool) :
    WsHeaderStatus × Websocket :=
  let msgMasked := (buf.getD 1 0 >>> 7) &&& 0x01
  let lengthField := (buf.getD 1 0 &&& 0x7F).toNat
  let ws := { ws with
    msgOpcode := buf.getD 0 0 &&& 0x0F
    msgFin := (buf.getD 0 0 >>> 7) &&& 0x01
    leftHeaderLen := 0 }
  if lengthField ≤ 125 then
    let ws := { ws with
      lenBytes := .shortHeader
      payloadLength := lengthField
      leftHeaderLen := sizeSub (WsHeadLen.shortHeader.awaited isServer) size }
    if 0 < ws.leftHeaderLen then (.incomplete, ws)
    else (.complete, ws.copyMask msgMasked (buf.drop 2))
  else if lengthField = 126 then
    let ws := { ws with
      lenBytes := .mediumHeader
      leftHeaderLen := sizeSub (WsHeadLen.mediumHeader.awaited isServer) size }
    if 0 < ws.leftHeaderLen then (.incomplete, ws)
    else
      let ws := { ws with payloadLength := ofBE ((buf.drop 2).take 2) }
      (.complete, ws.copyMask msgMasked (buf.drop 4))
  else if lengthField = 127 then
    let ws := { ws with
      lenBytes := .longHeader
      leftHeaderLen := sizeSub (WsHeadLen.longHeader.awaited isServer) size }
    if 0 < ws.leftHeaderLen then (.incomplete, ws)
    else
      let ws := { ws with payloadLength := ofBE ((buf.drop 2).take 8) }
      (.complete, ws.copyMask msgMasked (buf.drop 10))
  else (.error, { ws with lenBytes := .invalidHeader })

/-- The type `parse_payload` returns. -/
def Websocket.frameType (ws : Websocket) : WsFrameType :=
  if ws.msgOpcode = 0x0 then if ws.msgFin ≠ 0 then .text else .incompleteText
  else if ws.msgOpcode = 0x1 then if ws.msgFin ≠ 0 then .text else .incompleteText
  else if ws.msgOpcode = 0x2 then if ws.msgFin ≠ 0 then .binary else .incompleteBinary
  else if ws.msgOpcode = 0x8 then .close
  else if ws.msgOpcode = 0x9 then .ping
  else if ws.msgOpcode = 0xA then .pong
  else .error

/-- `parse_payload`: the type of the frame, and its payload without the mask. -/
def parsePayload (ws : Websocket) (buf : Bytes) : WsFrameType × Bytes :=
  (ws.frameType,
    if ws.maskKey ≠ 0 then
      buf.mapIdx fun i b => if i < ws.payloadLength then b ^^^ maskByte ws.maskKey i else b
    else buf)

/-- The class of the header for a payload of this size. -/
def headLen (size : ℕ) : WsHeadLen :=
  if size < 126 then .shortHeader else if size < 65536 then .mediumHeader else .longHeader

/-- The length field of the first two bytes. -/
def lenField (size : ℕ) : ℕ := if size < 126 then size else if size < 65536 then 126 else 127

/-- The extended length behind them, none for a short payload. -/
def extendedLen (size : ℕ) : Bytes :=
  if 126 ≤ size then if 65536 ≤ size then toBE 8 size else toBE 2 size else []

/-- `encode_ws_header`. The header is the `msgHeader` of the object behind it, and `random` is the
value of `rand()`. -/
def encodeWsHeader (ws : Websocket) (random : UInt32) (size : ℕ) (op : Opcode)
    (eof needCompression isClient : Bool) : Websocket :=
  let hdr : FrameHeader :=
    { fin := eof
      rsv2 := false
      rsv1 := needCompression
      rsv3 := false
      opcode := op.value
      mask := isClient
      len := BitVec.ofNat 7 (lenField size) }
  if isClient then
    let maskKey := if 0 < size then random else ws.maskKey
    { ws with
      maskKey := maskKey
      msgHeader := hdr.toBytes ++ extendedLen size ++ toLE 4 maskKey.toNat }
  else { ws with msgHeader := hdr.toBytes ++ extendedLen size }

/-- `encode_frame`: the header, and the payload as it is sent. -/
def encodeFrame (ws : Websocket) (random : UInt32) (data : Bytes) (op : Opcode)
    (eof needCompression : Bool) : Websocket × Bytes :=
  let ws := encodeWsHeader ws random data.length op eof needCompression true
  (ws, maskPayload ws.maskKey data)

/-! ### The fields of a header -/

/-- The low half of the first byte. -/
theorem opcode_bits : ∀ (fin rsv1 rsv2 rsv3 : Bool) (opcode : BitVec 4),
    (⟨BitVec.ofBool fin ++ BitVec.ofBool rsv1 ++ BitVec.ofBool rsv2 ++ BitVec.ofBool rsv3 ++
      opcode⟩ : UInt8) &&& 0x0F = ⟨opcode.setWidth 8⟩ := by
  decide

theorem fin_bit : ∀ (fin rsv1 rsv2 rsv3 : Bool) (opcode : BitVec 4),
    ((⟨BitVec.ofBool fin ++ BitVec.ofBool rsv1 ++ BitVec.ofBool rsv2 ++ BitVec.ofBool rsv3 ++
      opcode⟩ : UInt8) >>> 7) &&& 0x01 = if fin then 1 else 0 := by
  decide

theorem mask_bit : ∀ (mask : Bool) (len : BitVec 7),
    ((⟨BitVec.ofBool mask ++ len⟩ : UInt8) >>> 7) &&& 0x01 = if mask then 1 else 0 := by
  decide

/-- The low seven bits of the second byte. -/
theorem len_bits : ∀ (mask : Bool) (len : BitVec 7),
    ((⟨BitVec.ofBool mask ++ len⟩ : UInt8) &&& 0x7F).toNat = len.toNat := by
  decide

/-! ### Parsing -/

theorem toBE_length (w n : ℕ) : (toBE w n).length = w := by
  rw [toBE, List.length_reverse, toLE_length]

theorem ofBE_toBE {w n : ℕ} (h : n < 256 ^ w) : ofBE (toBE w n) = n := by
  rw [ofBE, toBE, List.reverse_reverse, ofLE_toLE h]

theorem lenField_lt (size : ℕ) : lenField size < 128 := by
  unfold lenField
  split_ifs <;> omega

/-- The three classes of a header. -/
theorem headLen_cases (n : ℕ) :
    n < 126 ∧ headLen n = .shortHeader ∧ lenField n = n ∧ extendedLen n = [] ∨
      126 ≤ n ∧ n < 256 ^ 2 ∧ headLen n = .mediumHeader ∧ lenField n = 126 ∧
        extendedLen n = toBE 2 n ∨
      256 ^ 2 ≤ n ∧ headLen n = .longHeader ∧ lenField n = 127 ∧ extendedLen n = toBE 8 n := by
  unfold headLen lenField extendedLen
  by_cases hshort : n < 126
  · exact .inl (by simp [hshort, Nat.not_le_of_lt hshort])
  · have hn : 126 ≤ n := Nat.le_of_not_lt hshort
    by_cases hmedium : n < 65536
    · exact .inr (.inl (by simp [hshort, hn, hmedium, Nat.not_le_of_lt hmedium]))
    · exact .inr (.inr (by simp [hshort, hn, hmedium, Nat.le_of_not_lt hmedium]))

section Parsing

variable (ws : Websocket) {hdr : FrameHeader} {n size : ℕ} {isServer : Bool}

/-- The object once the first two bytes of a frame are parsed. -/
def Websocket.started (ws : Websocket) (hdr : FrameHeader) (n size : ℕ) (isServer : Bool) :
    Websocket :=
  { ws with
    msgOpcode := ⟨hdr.opcode.setWidth 8⟩
    msgFin := if hdr.fin then 1 else 0
    lenBytes := headLen n
    leftHeaderLen := sizeSub ((headLen n).awaited isServer) size }

/-- Bytes of the header are missing. -/
theorem parseHeader_incomplete (hlen : hdr.len = BitVec.ofNat 7 (lenField n)) (rest : Bytes)
    (hleft : 0 < sizeSub ((headLen n).awaited isServer) size) :
    parseHeader ws (hdr.toBytes ++ rest) size isServer =
      (.incomplete, { ws.started hdr n size isServer with
        payloadLength := if n < 126 then n else ws.payloadLength }) := by
  have hfield : (hdr.len).toNat = lenField n := by
    rw [hlen, BitVec.toNat_ofNat, Nat.mod_eq_of_lt (lenField_lt n)]
  simp only [parseHeader, FrameHeader.toBytes, List.cons_append, List.getD_cons_zero,
    List.getD_cons_succ, opcode_bits, fin_bit, mask_bit, len_bits, hfield]
  obtain ⟨hn, hclass, hlf, -⟩ | ⟨hn, -, hclass, hlf, -⟩ | ⟨hn, hclass, hlf, -⟩ := headLen_cases n
  · rw [hclass] at hleft
    simp [hlf, Websocket.started, hclass, hn, hleft, Nat.le_of_lt_succ hn]
  · rw [hclass] at hleft
    simp [hlf, Websocket.started, hclass, Nat.not_lt_of_le hn, hleft]
  · rw [hclass] at hleft
    have hlong : ¬ n < 126 := by omega
    simp [hlf, Websocket.started, hclass, hlong, hleft]

/-- The whole header is there. -/
theorem parseHeader_complete (hlen : hdr.len = BitVec.ofNat 7 (lenField n)) (hn : n < 2 ^ 64)
    (rest : Bytes) (hleft : sizeSub ((headLen n).awaited isServer) size = 0) :
    parseHeader ws (hdr.toBytes ++ (extendedLen n ++ rest)) size isServer =
      (.complete, { ws.started hdr n size isServer with payloadLength := n }.copyMask
        (if hdr.mask then 1 else 0) rest) := by
  have hfield : (hdr.len).toNat = lenField n := by
    rw [hlen, BitVec.toNat_ofNat, Nat.mod_eq_of_lt (lenField_lt n)]
  simp only [parseHeader, FrameHeader.toBytes, List.cons_append, List.getD_cons_zero,
    List.getD_cons_succ, opcode_bits, fin_bit, mask_bit, len_bits, hfield, List.nil_append,
    List.drop_succ_cons, List.drop_zero]
  obtain ⟨hlt, hclass, hlf, hext⟩ | ⟨-, hlt, hclass, hlf, hext⟩ | ⟨-, hclass, hlf, hext⟩ :=
    headLen_cases n
  · rw [hclass] at hleft
    simp [hlf, hext, Websocket.started, hclass, hleft, Nat.le_of_lt_succ hlt]
  · rw [hclass] at hleft
    rw [hext, List.take_left' (toBE_length 2 n), List.drop_left' (toBE_length 2 n),
      ofBE_toBE hlt]
    simp [hlf, Websocket.started, hclass, hleft]
  · rw [hclass] at hleft
    rw [hext, List.take_left' (toBE_length 8 n), List.drop_left' (toBE_length 8 n), ofBE_toBE hn]
    simp [hlf, Websocket.started, hclass, hleft]

end Parsing

/-! ### Masking -/

theorem maskPayload_length (maskKey : UInt32) (data : Bytes) :
    (maskPayload maskKey data).length = data.length := by
  rw [maskPayload, List.length_mapIdx]

/-- The mask is taken off by putting it on again. -/
theorem maskPayload_maskPayload (maskKey : UInt32) (data : Bytes) :
    maskPayload maskKey (maskPayload maskKey data) = data := by
  apply List.ext_getElem
  · rw [maskPayload_length, maskPayload_length]
  · intro i h₁ h₂
    simp [maskPayload, UInt8.xor_assoc]

/-- A key of zeros masks nothing. -/
theorem maskPayload_zero (data : Bytes) : maskPayload 0 data = data := by
  have hbyte : ∀ i, maskByte 0 i = 0 := by
    intro i
    have hi : i % 4 < 4 := Nat.mod_lt _ (by decide)
    have hzero : toLE 4 (0 : UInt32).toNat = List.replicate 4 0 := rfl
    rw [maskByte, hzero, List.getD_eq_getElem?_getD, List.getElem?_replicate, if_pos hi]
    rfl
  apply List.ext_getElem
  · rw [maskPayload_length]
  · intro i h₁ h₂
    simp [maskPayload, hbyte]

/-- A whole payload is unmasked. -/
theorem parsePayload_eq (ws : Websocket) {buf : Bytes} (h : buf.length = ws.payloadLength) :
    parsePayload ws buf = (ws.frameType, maskPayload ws.maskKey buf) := by
  rw [parsePayload]
  by_cases hkey : ws.maskKey = 0
  · rw [if_neg (by simpa using hkey), hkey, maskPayload_zero]
  · rw [if_pos hkey, maskPayload]
    congr 1
    apply List.ext_getElem
    · simp
    · intro i h₁ h₂
      have hi : i < ws.payloadLength := by simpa [h] using h₁
      simp [hi]

/-- The key of a header is read back. -/
theorem copyMask_toLE (ws : Websocket) (maskKey : UInt32) (rest : Bytes) :
    ws.copyMask 1 (toLE 4 maskKey.toNat ++ rest) = { ws with maskKey := maskKey } := by
  have hlt : maskKey.toNat < 256 ^ 4 := maskKey.toNat_lt
  rw [Websocket.copyMask, if_pos (by decide), List.take_left' (toLE_length 4 _), ofLE_toLE hlt,
    UInt32.ofNat_toNat]

end Yalantinglibs.Cinatra
