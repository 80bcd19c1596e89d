import Yalantinglibs.Data.Ascii
import Yalantinglibs.StructPack.MessageSize

/-!
# The protocol of coro_rpc

`protocol/coro_rpc_protocol.hpp`: the header of a response, `prepare_response`, and the part of the
client's `recv` that takes a response off the stream. Header and error texts are struct_pack
messages.

## Main definitions

* `RespHeader`, `serializeHeader`, `deserializeHeader` — `resp_header`
* `errorBody` — the body of an error
* `prepareResponse` — the header of a response, and its body
* `recvResponse` — what the client reads

## Main results

* `serialize_respHeader` — the header is what struct_pack writes
* `recvResponse_append` — a frame whose header counts its bytes is taken off whole
-/

set_option autoImplicit false

namespace Yalantinglibs.CoroRpc

open ByteCodec StructPack

/-! ### Messages of struct_pack -/

/-- `resp_header`, as struct_pack sees it. -/
def respHeaderDef : StructDef where
  fields := [.fundamental .uint8, .fundamental .uint8, .fundamental .uint8, .fundamental .uint8,
    .fundamental .uint32, .fundamental .uint32, .fundamental .uint32]
  init := .list []

/-- The program, in a build with or without `NDEBUG`. -/
def program (ndebug : Bool) : TypeEnv := { TypeEnv.plain with structs := [respHeaderDef], ndebug }

/-- `struct_pack::serialize_to<conf>` for one argument. -/
def serialize (ndebug : Bool) (conf : SpConfig) (t : Ty) (v : Val) : Bytes :=
  (program ndebug).serializeTo conf [t] [v] ((program ndebug).getSerializeRuntimeInfo conf [t] [v])

/-- A `std::string_view`. -/
def stringViewTy : Ty := .container .stringView (.fundamental .char8)

def stringView (s : Bytes) : Val := .list (s.map fun c => .bytes [c])

/-! ### The header -/

def magicNumber : UInt8 := 21

def VERSION_NUMBER : UInt8 := 0

def UINT8_MAX : ℕ := 255

def UINT32_MAX : ℕ := 2 ^ 32 - 1

/-- `resp_header`. -/
structure RespHeader where
  magic : UInt8
  version : UInt8
  errCode : UInt8
  msgType : UInt8
  seqNum : UInt32
  length : UInt32
  attachLength : UInt32
  deriving DecidableEq, Repr

/-- `RESP_HEAD_LEN`. -/
def RESP_HEAD_LEN : ℕ := 16

/-- The bytes of a header. -/
def serializeHeader (h : RespHeader) : Bytes :=
  [h.magic, h.version, h.errCode, h.msgType] ++ toLE 4 h.seqNum.toNat ++ toLE 4 h.length.toNat ++
    toLE 4 h.attachLength.toNat

/-- The header in the buffer of the client. -/
def deserializeHeader (buffer : Bytes) : RespHeader where
  magic := buffer.getD 0 0
  version := buffer.getD 1 0
  errCode := buffer.getD 2 0
  msgType := buffer.getD 3 0
  seqNum := UInt32.ofNat (ofLE ((buffer.drop 4).take 4))
  length := UInt32.ofNat (ofLE ((buffer.drop 8).take 4))
  attachLength := UInt32.ofNat (ofLE ((buffer.drop 12).take 4))

/-- A header as a value of struct_pack. -/
def RespHeader.toVal (h : RespHeader) : Val :=
  .list [.bytes [h.magic], .bytes [h.version], .bytes [h.errCode], .bytes [h.msgType],
    .bytes (toLE 4 h.seqNum.toNat), .bytes (toLE 4 h.length.toNat),
    .bytes (toLE 4 h.attachLength.toNat)]

/-! ### Errors -/

/-- `coro_rpc::errc::message_too_large`. -/
def messageTooLarge : UInt16 := 14

/-- The body of an error: the text, behind the code if the header has no room for it. -/
def errorBody (ndebug : Bool) (code : UInt16) (msg : Bytes) : Bytes :=
  if UINT8_MAX < code.toNat then
    serialize ndebug SpConfig.DEFAULT (.pair (.fundamental .uint16) stringViewTy)
      (.list [.bytes (toLE 2 code.toNat), stringView msg])
  else serialize ndebug SpConfig.DEFAULT stringViewTy (stringView msg)

/-- `resp_header::err_code` of an error. -/
def headerErrCode (code : UInt16) : UInt8 :=
  if UINT8_MAX < code.toNat then 255 else UInt8.ofNat code.toNat

/-- `prepare_response`: the header, and what `rpc_result` holds then. -/
def prepareResponse (ndebug : Bool) (rpcResult : Bytes) (seqNum : UInt32) (attachmentLen : ℕ)
    (rpcErrCode : UInt16) (errMsg : Bytes) : RespHeader × Bytes :=
  let refused : UInt16 × Bytes :=
    if UINT32_MAX < attachmentLen then
      (messageTooLarge, ascii "attachment larger than 4G:" ++ toDecimal attachmentLen ++ ascii "B")
    else if UINT32_MAX < rpcResult.length then
      -- the size in this text is that of the attachment, too
      (messageTooLarge, ascii "body larger than 4G:" ++ toDecimal attachmentLen ++ ascii "B")
    else (rpcErrCode, errMsg)
  let body := if refused.1 ≠ 0 then errorBody ndebug refused.1 refused.2 else rpcResult
  (⟨magicNumber, VERSION_NUMBER, if refused.1 ≠ 0 then headerErrCode refused.1 else 0, 0, seqNum,
    UInt32.ofNat body.length, UInt32.ofNat attachmentLen⟩, body)

/-! ### The client -/

/-- A response as the client reads it: the header, the body, and the attachment. -/
structure Response where
  header : RespHeader
  body : Bytes
  attachment : Bytes
  deriving DecidableEq, Repr

/-- The reads of one round of `recv`; `none` if the stream ends first. -/
def recvResponse (stream : Bytes) : Option (Response × Bytes) :=
  if stream.length < RESP_HEAD_LEN then none
  else
    let header := deserializeHeader (stream.take RESP_HEAD_LEN)
    let stream := stream.drop RESP_HEAD_LEN
    let bodyLen := header.length.toNat
    let attachLen := header.attachLength.toNat
    if stream.length < bodyLen + attachLen then none
    else
      some (⟨header, stream.take bodyLen, (stream.drop bodyLen).take attachLen⟩,
        stream.drop (bodyLen + attachLen))

section Lemmas

variable {ndebug : Bool}

theorem serializeHeader_length (h : RespHeader) : (serializeHeader h).length = RESP_HEAD_LEN := by
  simp [serializeHeader, RESP_HEAD_LEN]

theorem deserializeHeader_serializeHeader (h : RespHeader) :
    deserializeHeader (serializeHeader h) = h := by
  have hword : ∀ x : UInt32, UInt32.ofNat (ofLE (toLE 4 x.toNat)) = x := by
    intro x
    rw [ofLE_toLE (w := 4) x.toNat_lt, UInt32.ofNat_toNat]
  have hseq := hword h.seqNum
  have hlen := hword h.length
  have hatt := hword h.attachLength
  cases h
  simp only [toLE] at hseq hlen hatt
  simp only [deserializeHeader, serializeHeader, toLE, List.cons_append, List.nil_append,
    List.drop_succ_cons, List.drop_zero, List.take_succ_cons, List.take_zero, hseq, hlen, hatt,
    List.getD_cons_zero, List.getD_cons_succ]

/-- A frame whose header counts its bytes is taken off whole. -/
theorem recvResponse_append {h : RespHeader} {body attachment : Bytes}
    (hbody : h.length.toNat = body.length) (hattach : h.attachLength.toNat = attachment.length)
    (rest : Bytes) :
    recvResponse (serializeHeader h ++ body ++ attachment ++ rest) =
      some (⟨h, body, attachment⟩, rest) := by
  have hlen := serializeHeader_length h
  have htake : (serializeHeader h ++ (body ++ (attachment ++ rest))).take RESP_HEAD_LEN =
      serializeHeader h := by rw [← hlen, List.take_left]
  have hdrop : (serializeHeader h ++ (body ++ (attachment ++ rest))).drop RESP_HEAD_LEN =
      body ++ (attachment ++ rest) := by rw [← hlen, List.drop_left]
  rw [List.append_assoc, List.append_assoc, recvResponse, if_neg (by simp [hlen])]
  simp only [htake, hdrop, deserializeHeader_serializeHeader, hbody, hattach]
  rw [if_neg (by simp), List.take_left, List.drop_left, List.take_left, ← List.drop_drop,
    List.drop_left, List.drop_left]

/-- struct_pack writes a header without padding. -/
theorem serialize_respHeader (h : RespHeader) :
    serialize ndebug SpConfig.DISABLE_ALL_META_INFO (.struct 0) h.toVal = serializeHeader h := by
  have hdisable : (program ndebug).checkIfDisableHashHead SpConfig.DISABLE_ALL_META_INFO
      (TypeEnv.getArgsType [.struct 0]) = true := by cases ndebug <;> decide +kernel
  have hcontainer : (program ndebug).checkIfHasContainer (TypeEnv.getArgsType [.struct 0]) = false := by
    cases ndebug <;> decide +kernel
  have hcompatible : (program ndebug).existCompatibleMember (TypeEnv.getArgsType [.struct 0]) = false := by
    cases ndebug <;> decide +kernel
  have hwrites : (program ndebug).writesMetainfo SpConfig.DISABLE_ALL_META_INFO true
      [.struct 0] = false := by cases ndebug <;> decide +kernel
  have htrivial : (program ndebug).isTrivialIgnoringCompatible (.struct 0) = true := by
    cases ndebug <;> decide +kernel
  have hpadding : ((program ndebug).paddingSize (.struct 0)).tail = List.replicate 7 0 := by
    cases ndebug <;> decide +kernel
  have hfields : (program ndebug).fields 0 = respHeaderDef.fields := rfl
  simp only [serialize, TypeEnv.serializeTo, TypeEnv.packerWidthClass, hcontainer,
    Bool.false_eq_true, if_false, decide_true, TypeEnv.serializeMetainfo, hdisable, if_true,
    hwrites, TypeEnv.serializeVersions, hcompatible, RespHeader.toVal, TypeEnv.serializeMany,
    TypeEnv.serializeOne, TypeEnv.serializeClass, htrivial, hpadding, hfields]
  have hplain : SpConfig.DEFAULT &&& SpConfig.ENCODING_WITH_VARINT = 0 := by decide
  simp [respHeaderDef, TypeEnv.serializePadded, TypeEnv.serializeOne, serializeHeader,
    List.replicate, varintForm, hplain]

/-- The text of an error takes a few bytes more than it has characters. -/
theorem serialize_stringView_length_le (ndebug : Bool) (msg : Bytes) :
    (serialize ndebug SpConfig.DEFAULT stringViewTy (stringView msg)).length ≤ msg.length + 64 := by
  have hallowed : (program ndebug).DisableHashHeadAllowed SpConfig.DEFAULT
      (TypeEnv.getArgsType [stringViewTy]) := fun _ => by cases ndebug <;> decide +kernel
  have hcompatible : (program ndebug).existCompatibleMember
      (TypeEnv.getArgsType [stringViewTy]) = false := by cases ndebug <;> decide +kernel
  have htrivial : (program ndebug).isTriviallyCopyable .stringView (.fundamental .char8) = true := by
    cases ndebug <;> decide +kernel
  have hliteral : ((program ndebug).getTypeLiteral
      (TypeEnv.getArgsType [stringViewTy])).length ≤ 16 := by cases ndebug <;> decide +kernel
  have hwidth : 2 ^ (program ndebug).messageWidthClass [stringViewTy] [stringView msg] ≤ 8 :=
    Nat.pow_le_pow_right (by decide) (TypeEnv.messageWidthClass_le _ _ _)
  have hmetainfo := @TypeEnv.serializeMetainfo_length _ _ _ [stringView msg] hallowed
    ((program ndebug).messageWidthClass [stringViewTy] [stringView msg] = 0)
  have hpayload : ∀ w, (program ndebug).serializeMany w SpConfig.DEFAULT [stringViewTy]
      [stringView msg] = toLE w msg.length ++ msg := by
    intro w
    simp [TypeEnv.serializeMany, stringViewTy, stringView, TypeEnv.serializeOne, htrivial,
      List.flatMap_map]
  have hfield : (program ndebug).lengthFieldSize SpConfig.DEFAULT [stringViewTy]
      [stringView msg] = 0 := by rw [TypeEnv.lengthFieldSize, hcompatible]; rfl
  rw [serialize, TypeEnv.serializeTo, TypeEnv.packerWidthClass_info, TypeEnv.serializeVersions,
    hcompatible, hpayload]
  simp only [Bool.false_eq_true, if_false, List.append_nil, List.length_append, hmetainfo,
    hfield, toLE_length]
  split_ifs <;> omega

end Lemmas

end Yalantinglibs.CoroRpc
