import Yalantinglibs.CoroRpc.Protocol

/-!
# The frames of responses

What the server puts on the wire for a response, `direct_response_msg`, `response_msg`,
`response_error` and `send_data` of `coro_connection.hpp`, and what the client reads there.

The header is filled by `prepare_response`, which may replace the body by an error. The attachment
is taken from the entry of the write queue when that is sent, whatever the header says.

## Main definitions

* `Answer`, `queueEntry` — the ways to respond, and their entries of the write queue
* `Frames` — a header counts the bytes behind it, and what is too large is refused
* `InSync` — the client follows a sequence of responses

## Main results

* `frames_iff` — when a response is framed
* `inSync_iff` — when a sequence of responses is
-/

set_option autoImplicit false

namespace Yalantinglibs.CoroRpc

open ByteCodec StructPack

/-! ### The server -/

/-- The function that holds an attachment is called twice: for its length when the header is
prepared, and for its bytes when the entry is sent. Its length is a `std::size_t`. -/
structure RespAttachment where
  prepared : Bytes
  sent : Bytes
  prepared_lt : prepared.length < 2 ^ 64
  deriving DecidableEq

/-- No attachment. -/
def RespAttachment.empty : RespAttachment := ⟨[], [], by decide⟩

/-- An entry of `write_queue_`. -/
structure QueueEntry where
  header : RespHeader
  body : Bytes
  attachment : Bytes
  deriving DecidableEq, Repr

/-- The ways to respond to a request: from the connection with the result of a handler, or from a
context with a result or an error. -/
inductive Answer
  | directResponseMsg (respErr : UInt16) (respBuf : Bytes) (attachment : RespAttachment)
  | responseMsg (bodyBuf : Bytes) (attachment : RespAttachment)
  | responseError (ec : UInt16) (errorMsg : Bytes)
  deriving DecidableEq

section Server

variable (ndebug : Bool) (seqNum : UInt32)

/-- `direct_response_msg`. -/
def directResponseMsg (respErr : UInt16) (respBuf : Bytes) (attachment : RespAttachment) :
    QueueEntry :=
  let respErrorMsg := if respErr ≠ 0 then respBuf else []
  let respBuf := if respErr ≠ 0 then [] else respBuf
  let prepared := prepareResponse ndebug respBuf seqNum attachment.prepared.length respErr
    respErrorMsg
  ⟨prepared.1, prepared.2, attachment.sent⟩

/-- `response_msg`. -/
def responseMsg (bodyBuf : Bytes) (attachment : RespAttachment) : QueueEntry :=
  let prepared := prepareResponse ndebug bodyBuf seqNum attachment.prepared.length 0 []
  ⟨prepared.1, prepared.2, attachment.sent⟩

/-- `response_error`. -/
def responseError (ec : UInt16) (errorMsg : Bytes) : QueueEntry :=
  let prepared := prepareResponse ndebug [] seqNum 0 ec errorMsg
  ⟨prepared.1, prepared.2, []⟩

/-- The entry of the write queue for a response. -/
def queueEntry : Answer → QueueEntry
  | .directResponseMsg respErr respBuf attachment =>
    directResponseMsg ndebug seqNum respErr respBuf attachment
  | .responseMsg bodyBuf attachment => responseMsg ndebug seqNum bodyBuf attachment
  | .responseError ec errorMsg => responseError ndebug seqNum ec errorMsg

end Server

/-- The buffers `send_data` writes for an entry. -/
def QueueEntry.wire (e : QueueEntry) : Bytes := serializeHeader e.header ++ e.body ++ e.attachment

/-! ### Framing -/

/-- The body a response is meant to have. -/
def Answer.rpcResult : Answer → Bytes
  | .directResponseMsg respErr respBuf _ => if respErr ≠ 0 then [] else respBuf
  | .responseMsg bodyBuf _ => bodyBuf
  | .responseError _ _ => []

/-- The error a response is meant to report. -/
def Answer.errCode : Answer → UInt16
  | .directResponseMsg respErr _ _ => respErr
  | .responseMsg _ _ => 0
  | .responseError ec _ => ec

def Answer.errMsg : Answer → Bytes
  | .directResponseMsg respErr respBuf _ => if respErr ≠ 0 then respBuf else []
  | .responseMsg _ _ => []
  | .responseError _ errorMsg => errorMsg

def Answer.attachment : Answer → RespAttachment
  | .directResponseMsg _ _ attachment => attachment
  | .responseMsg _ attachment => attachment
  | .responseError _ _ => .empty

/-- A body or an attachment that the header cannot represent. -/
def TooLarge (a : Answer) : Prop :=
  UINT32_MAX < a.attachment.prepared.length ∨ UINT32_MAX < a.rpcResult.length

/-- The header counts the bytes behind it, and what is too large is answered by an error without
an attachment. -/
def Frames (a : Answer) (e : QueueEntry) : Prop :=
  e.header.length.toNat = e.body.length ∧ e.header.attachLength.toNat = e.attachment.length ∧
    (TooLarge a → e.header.errCode ≠ 0 ∧ e.attachment = [])

/-- The responses that are framed. -/
structure CanFrame (ndebug : Bool) (a : Answer) : Prop where
  /-- the length of the attachment fits, and is the same when it is sent; a multiple of `2 ^ 32`
  passes for none if nothing is sent after all -/
  attachment : a.attachment.prepared.length ≤ UINT32_MAX ∧
      a.attachment.sent.length = a.attachment.prepared.length ∨
    2 ^ 32 ∣ a.attachment.prepared.length ∧ a.attachment.sent = []
  /-- a body that is refused has no attachment -/
  body : UINT32_MAX < a.rpcResult.length → a.attachment.sent = []
  /-- the text of an error fits -/
  error : ¬ TooLarge a → a.errCode ≠ 0 →
    (errorBody ndebug a.errCode a.errMsg).length ≤ UINT32_MAX

/-- The responses of a connection: the number of each request, and the answer to it. -/
abbrev Responses := List (UInt32 × Answer)

/-- The bytes on the wire. -/
def wire (ndebug : Bool) (rs : Responses) : Bytes :=
  rs.flatMap fun r => (queueEntry ndebug r.1 r.2).wire

/-- The client reads one response after the other. -/
def recvResponses : ℕ → Bytes → Option (List Response × Bytes)
  | 0, stream => some ([], stream)
  | n + 1, stream =>
    (recvResponse stream).bind fun p =>
      (recvResponses n p.2).map fun q => (p.1 :: q.1, q.2)

/-- The responses as they were queued. -/
def QueueEntry.response (e : QueueEntry) : Response := ⟨e.header, e.body, e.attachment⟩

/-- Every response is framed, and a client that reads the stream is behind the last one then. -/
def InSync (ndebug : Bool) (rs : Responses) : Prop :=
  (∀ r ∈ rs, Frames r.2 (queueEntry ndebug r.1 r.2)) ∧
    ∀ rest, recvResponses rs.length (wire ndebug rs ++ rest) =
      some (rs.map fun r => (queueEntry ndebug r.1 r.2).response, rest)

section Lemmas

variable {ndebug : Bool} {seqNum : UInt32} {a : Answer}

/-- All ways to respond prepare their header alike. -/
theorem queueEntry_eq (a : Answer) :
    queueEntry ndebug seqNum a =
      let prepared := prepareResponse ndebug a.rpcResult seqNum a.attachment.prepared.length
        a.errCode a.errMsg
      ⟨prepared.1, prepared.2, a.attachment.sent⟩ := by
  cases a <;> rfl

theorem uint32_ofNat_toNat_iff {n : ℕ} : (UInt32.ofNat n).toNat = n ↔ n ≤ UINT32_MAX := by
  rw [UInt32.toNat_ofNat', UINT32_MAX]
  omega

/-- The text about what is too large is short itself. -/
theorem errorBody_refused_length (start : Bytes) {n : ℕ} (hstart : start.length ≤ 64)
    (hn : n < 2 ^ 64) :
    (errorBody ndebug messageTooLarge (start ++ toDecimal n ++ ascii "B")).length ≤
      UINT32_MAX := by
  have hdigits : (Nat.toDigits 10 n).length ≤ 20 :=
    (Nat.length_toDigits_le_iff (by decide) (by decide)).mpr (by omega)
  have hbody := serialize_stringView_length_le ndebug (start ++ toDecimal n ++ ascii "B")
  have htext : (ascii "B").length = 1 := by decide
  rw [List.length_append, List.length_append, toDecimal, List.length_map, htext] at hbody
  rw [errorBody, if_neg (by decide), UINT32_MAX, toDecimal]
  omega

/-- What is refused is answered by an error with the code `message_too_large`. -/
theorem prepareResponse_refused (ndebug : Bool) (seqNum : UInt32) (h : TooLarge a) :
    ∃ msg : Bytes, (errorBody ndebug messageTooLarge msg).length ≤ UINT32_MAX ∧
      prepareResponse ndebug a.rpcResult seqNum a.attachment.prepared.length a.errCode a.errMsg =
        (⟨magicNumber, VERSION_NUMBER, headerErrCode messageTooLarge, 0, seqNum,
          UInt32.ofNat (errorBody ndebug messageTooLarge msg).length,
          UInt32.ofNat a.attachment.prepared.length⟩, errorBody ndebug messageTooLarge msg) := by
  have hcode : messageTooLarge ≠ 0 := by decide
  by_cases hattach : UINT32_MAX < a.attachment.prepared.length
  · refine ⟨_, errorBody_refused_length (ascii "attachment larger than 4G:") (by decide)
      a.attachment.prepared_lt, ?_⟩
    rw [prepareResponse]
    simp only [if_pos hattach, if_pos hcode]
  · refine ⟨_, errorBody_refused_length (ascii "body larger than 4G:") (by decide)
      a.attachment.prepared_lt, ?_⟩
    rw [prepareResponse]
    simp only [if_neg hattach, if_pos (h.resolve_left hattach), if_pos hcode]

theorem frames_iff : Frames a (queueEntry ndebug seqNum a) ↔ CanFrame ndebug a := by
  rw [queueEntry_eq, Frames]
  by_cases h : TooLarge a
  · obtain ⟨msg, hmsg, heq⟩ := prepareResponse_refused ndebug seqNum h
    have herr : headerErrCode messageTooLarge ≠ 0 := by decide
    simp only [heq, uint32_ofNat_toNat_iff.mpr hmsg, h, true_and, ne_eq, herr, not_false_eq_true,
      forall_const, UInt32.toNat_ofNat']
    constructor
    · rintro ⟨hlen, hnil⟩
      rw [hnil, List.length_nil] at hlen
      exact ⟨.inr ⟨Nat.dvd_of_mod_eq_zero hlen, hnil⟩, fun _ => hnil, fun hnot => absurd h hnot⟩
    · intro hframe
      have hnil : a.attachment.sent = [] := by
        rcases h with h | h
        · exact (hframe.attachment.resolve_left fun h' => absurd h'.1 (Nat.not_le.mpr h)).2
        · exact hframe.body h
      refine ⟨?_, hnil⟩
      rcases hframe.attachment with ⟨hle, hlen⟩ | ⟨hdvd, -⟩
      · rw [hlen, Nat.mod_eq_of_lt (by rw [UINT32_MAX] at hle; omega)]
      · rw [hnil, Nat.mod_eq_zero_of_dvd hdvd, List.length_nil]
  · have hattach : a.attachment.prepared.length ≤ UINT32_MAX := not_lt.mp fun h' => h (.inl h')
    have hbody : a.rpcResult.length ≤ UINT32_MAX := not_lt.mp fun h' => h (.inr h')
    rw [prepareResponse]
    simp only [if_neg (Nat.not_lt.mpr hattach), if_neg (Nat.not_lt.mpr hbody),
      uint32_ofNat_toNat_iff, uint32_ofNat_toNat_iff.mpr hattach, h, false_imp_iff, and_true]
    constructor
    · rintro ⟨hlen, hsent⟩
      refine ⟨.inl ⟨hattach, hsent.symm⟩, fun h' => absurd h' (Nat.not_lt.mpr hbody), ?_⟩
      intro _ hcode
      rwa [if_pos hcode] at hlen
    · intro hframe
      refine ⟨?_, ?_⟩
      · by_cases hcode : a.errCode ≠ 0
        · rw [if_pos hcode]
          exact hframe.error h hcode
        · rwa [if_neg hcode]
      · rcases hframe.attachment with ⟨-, hlen⟩ | ⟨hdvd, hnil⟩
        · exact hlen.symm
        · -- a multiple that fits is zero
          obtain ⟨k, hk⟩ := hdvd
          rw [UINT32_MAX] at hattach
          rw [hnil, List.length_nil]
          omega

theorem recvResponse_wire (h : Frames a (queueEntry ndebug seqNum a)) (rest : Bytes) :
    recvResponse ((queueEntry ndebug seqNum a).wire ++ rest) =
      some ((queueEntry ndebug seqNum a).response, rest) :=
  recvResponse_append h.1 h.2.1 rest

/-- A client that reads framed responses is never out of step. -/
theorem recvResponses_wire {rs : Responses}
    (h : ∀ r ∈ rs, Frames r.2 (queueEntry ndebug r.1 r.2)) (rest : Bytes) :
    recvResponses rs.length (wire ndebug rs ++ rest) =
      some (rs.map fun r => (queueEntry ndebug r.1 r.2).response, rest) := by
  induction rs with
  | nil => rfl
  | cons r rs ih =>
    have hwire : wire ndebug (r :: rs) ++ rest =
        (queueEntry ndebug r.1 r.2).wire ++ (wire ndebug rs ++ rest) := by
      rw [wire, List.flatMap_cons, List.append_assoc]
      rfl
    rw [hwire, List.length_cons, recvResponses, recvResponse_wire (h r List.mem_cons_self)]
    have ih := ih fun s hs => h s (List.mem_cons_of_mem _ hs)
    simp only [Option.bind_some, ih, Option.map_some, List.map_cons]

/-- A sequence of responses is framed if and only if each of them is. -/
theorem inSync_iff (ndebug : Bool) (rs : Responses) :
    InSync ndebug rs ↔ ∀ r ∈ rs, CanFrame ndebug r.2 := by
  constructor
  · intro h r hr
    exact frames_iff.mp (h.1 r hr)
  · intro h
    have hframes : ∀ r ∈ rs, Frames r.2 (queueEntry ndebug r.1 r.2) :=
      fun r hr => frames_iff.mpr (h r hr)
    exact ⟨hframes, recvResponses_wire hframes⟩

end Lemmas

/-- An attachment of `2 ^ 32` bytes. -/
def largeAttachment : RespAttachment where
  prepared := List.replicate (2 ^ 32) 0
  sent := List.replicate (2 ^ 32) 0
  prepared_lt := by
    rw [List.length_replicate]
    decide

/-- It is sent behind a header that announces no attachment. -/
theorem not_inSync_largeAttachment :
    ¬ InSync true [(0, .responseMsg [] largeAttachment)] := by
  intro h
  have hlen : largeAttachment.sent.length = 2 ^ 32 := List.length_replicate
  have hrefused : TooLarge (.responseMsg [] largeAttachment) := by
    refine .inl ?_
    change UINT32_MAX < (List.replicate (2 ^ 32) (0 : UInt8)).length
    rw [List.length_replicate]
    decide
  have hnil : largeAttachment.sent = [] :=
    ((h.1 _ List.mem_cons_self).2.2 hrefused).2
  rw [hnil] at hlen
  exact absurd hlen (by decide)

end Yalantinglibs.CoroRpc
