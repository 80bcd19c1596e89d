import Yalantinglibs.Cinatra.FrameCodec

/-!
# Messages that reach the application

One call of `read_websocket` of `coro_http_connection.hpp` or of `async_read_ws` of
`coro_http_client.hpp` returns one frame. What the handshake has read beyond its end is in the
stream buffer when the first call starts: the server's call reads six bytes more before it looks at
them, and empties the buffer with the header, while the client's call empties it at once.

A server returns a continuation as text. A client returns no type at all: `resp_data` has no field
for it.

## Main definitions

* `readWebsocket`, `asyncReadWs` — one call of the server, and of the client
* `WellFormed`, `messageTypes` — sequences of frames, and the types of the messages they belong to
* `ServerIntact`, `ClientIntact` — every frame is returned, and no byte is lost
* `TypesTold` — what a client returns of two frames differs where their types do

## Main results

* `messages_intact_iff` — when that is the case
-/

set_option autoImplicit false

namespace Yalantinglibs.Cinatra

open ByteCodec SegmentedStream

/-! ### Close frames -/

/-- `is_valid_utf8`. The source skips four ASCII bytes at a time where it can. -/
def isValidUtf8 : Bytes → Bool
  | [] => true
  | [s0] => s0 &&& 0x80 = 0
  | [s0, s1] =>
    if s0 &&& 0x80 = 0 then isValidUtf8 [s1]
    else s0 &&& 0x60 = 0x40 && !(s1 &&& 0xC0 ≠ 0x80 || s0 &&& 0xFE = 0xC0)
  | [s0, s1, s2] =>
    if s0 &&& 0x80 = 0 then isValidUtf8 [s1, s2]
    else if s0 &&& 0x60 = 0x40 then
      !(s1 &&& 0xC0 ≠ 0x80 || s0 &&& 0xFE = 0xC0) && isValidUtf8 [s2]
    else
      s0 &&& 0xF0 = 0xE0 &&
        !(s1 &&& 0xC0 ≠ 0x80 || s2 &&& 0xC0 ≠ 0x80 || (s0 = 0xE0 && s1 &&& 0xE0 = 0x80) ||
          (s0 = 0xED && s1 &&& 0xE0 = 0xA0))
  | s0 :: s1 :: s2 :: s3 :: e =>
    if s0 &&& 0x80 = 0 then isValidUtf8 (s1 :: s2 :: s3 :: e)
    else if s0 &&& 0x60 = 0x40 then
      !(s1 &&& 0xC0 ≠ 0x80 || s0 &&& 0xFE = 0xC0) && isValidUtf8 (s2 :: s3 :: e)
    else if s0 &&& 0xF0 = 0xE0 then
      !(s1 &&& 0xC0 ≠ 0x80 || s2 &&& 0xC0 ≠ 0x80 || (s0 = 0xE0 && s1 &&& 0xE0 = 0x80) ||
        (s0 = 0xED && s1 &&& 0xE0 = 0xA0)) && isValidUtf8 (s3 :: e)
    else if s0 &&& 0xF8 = 0xF0 then
      !(s1 &&& 0xC0 ≠ 0x80 || s2 &&& 0xC0 ≠ 0x80 || s3 &&& 0xC0 ≠ 0x80 ||
        (s0 = 0xF0 && s1 &&& 0xF0 = 0x80) || (s0 = 0xF4 && 0x8F < s1) || 0xF4 < s0) &&
        isValidUtf8 e
    else false

/-- `parse_close_payload`: the message behind the code, empty where the code or the message is not
allowed. -/
def parseClosePayload (src : Bytes) : Bytes :=
  if 2 ≤ src.length then
    let code := ofBE (src.take 2)
    let message := src.drop 2
    if code < 1000 ∨ 4999 < code ∨ (1011 < code ∧ code < 4000) ∨ (1004 ≤ code ∧ code ≤ 1006) ∨
        !isValidUtf8 message then []
    else message
  else []

/-- `format_close_payload`. -/
def formatClosePayload (code : ℕ) (message : Bytes) : Bytes := toBE 2 code ++ message

/-- `close_code::normal` and `close_code::too_big`. -/
def closeCodeNormal : ℕ := 1000

def closeCodeTooBig : ℕ := 1009

/-! ### The server -/

/-- The errors of a read: the last one is that of a socket which is closed. -/
inductive WsError
  | messageSize | protocolError | readError
  deriving DecidableEq, Repr

/-- `websocket_result`. The type is `none` where it is left as zero. -/
structure WebsocketResult where
  ec : Option WsError := none
  type : Option WsFrameType := none
  data : Bytes := []
  eof : Bool := false
  deriving DecidableEq, Repr

/-- `coro_http_connection` as a WebSocket. `dropped` is what was taken from the stream without being
part of a header or of a payload that was read. -/
structure WsConnection where
  ws : Websocket
  headBuf : Bytes
  input : List Bytes
  sent : List (Opcode × Bytes)
  hasClosed : Bool
  dropped : Bytes

/-- The connection behind the handshake, with what it has read beyond it. -/
def WsConnection.start (headBuf : Bytes) (input : List Bytes) : WsConnection :=
  { ws := {}
    headBuf := headBuf
    input := input
    sent := []
    hasClosed := false
    dropped := [] }

/-- `write_websocket`, where the write succeeds. -/
def WsConnection.write (c : WsConnection) (msg : Bytes) (op : Opcode) : WsConnection :=
  { c with
    ws := encodeWsHeader c.ws 0 msg.length op true false false
    sent := c.sent ++ [(op, msg)] }

def WsConnection.close (c : WsConnection) : WsConnection := { c with hasClosed := true }

/-- The loop of `read_websocket` up to a whole header. Where that is incomplete at least one byte
more is read, so that one round for each byte of the stream is enough. -/
def WsConnection.readHeader : ℕ → WsConnection → Option (WsHeaderStatus × WsConnection)
  | 0, _ => none
  | rounds + 1, c =>
    let size := c.ws.lenBytes.bytes
    match parseHeader c.ws c.headBuf size true with
    | (.complete, ws) =>
      -- `consume(size())` takes more than the header where there is more
      some (.complete, { c with
        ws := ws.resetLenBytes, headBuf := [], dropped := c.dropped ++ c.headBuf.drop size })
    | (.incomplete, ws) =>
      (readExactly ws.leftHeaderLen c.input).bind fun r =>
        readHeader rounds { c with ws := ws, headBuf := c.headBuf ++ r.1, input := r.2 }
    | (.error, ws) => some (.error, { c with ws := ws })

/-- What `read_websocket` does with a frame of a type. -/
def WsConnection.returned (c : WsConnection) (type : WsFrameType) (payload : Bytes) :
    WebsocketResult × WsConnection :=
  match type with
  | .error => ({ ec := some .protocolError, type := some type }, c.close)
  | .incompleteText => ({ type := some type, data := payload, eof := false }, c)
  | .incompleteBinary => ({ type := some type, data := payload, eof := false }, c)
  | .text => ({ type := some type, data := payload, eof := true }, c)
  | .binary => ({ type := some type, data := payload, eof := true }, c)
  | .close =>
    let message := parseClosePayload payload
    ({ type := some type, data := message, eof := true },
      (c.write (formatClosePayload closeCodeNormal message) .close).close)
  | .ping => ({ type := some type, data := payload }, c.write payload .pong)
  | .pong => ({ type := some type, data := payload }, c.write payload .ping)

/-- `"message_too_big"`. -/
def messageTooBig : Bytes :=
  [109, 101, 115, 115, 97, 103, 101, 95, 116, 111, 111, 95, 98, 105, 103]

/-- `read_websocket` behind a header. -/
def WsConnection.readPayload (maxPartSize : ℕ) (c : WsConnection) :
    Option (WebsocketResult × WsConnection) :=
  if maxPartSize ≠ 0 ∧ maxPartSize < c.ws.payloadLength then
    some ({ ec := some .messageSize },
      (c.write (formatClosePayload closeCodeTooBig messageTooBig) .close).close)
  else
    (readExactly c.ws.payloadLength c.input).map fun r =>
      let c := { c with input := r.2 }
      let p := parsePayload c.ws r.1
      c.returned p.1 p.2

/-- `read_websocket`; `none` where it waits for bytes that never come. -/
def readWebsocket (maxPartSize : ℕ) (c : WsConnection) : Option (WebsocketResult × WsConnection) :=
  if c.hasClosed then some ({ ec := some .readError }, c)
  else
    (readExactly WsHeadLen.shortHeader.bytes c.input).bind fun r =>
      let c := { c with headBuf := c.headBuf ++ r.1, input := r.2 }
      (c.readHeader (c.input.flatten.length + 1)).bind fun r =>
        if r.1 ≠ .complete then some ({ ec := some .protocolError }, r.2.close)
        else r.2.readPayload maxPartSize

/-- Successive calls. -/
def readWebsockets (maxPartSize : ℕ) :
    ℕ → WsConnection → Option (List WebsocketResult × WsConnection)
  | 0, c => some ([], c)
  | n + 1, c =>
    (readWebsocket maxPartSize c).bind fun r =>
      (readWebsockets maxPartSize n r.2).map fun rs => (r.1 :: rs.1, rs.2)

/-! ### The client -/

/-- The fields of `resp_data` that `async_read_ws` fills. -/
structure RespData where
  status : ℕ := 0
  netErr : Bool := false
  respBody : Bytes := []
  deriving DecidableEq, Repr

/-- The socket of a client, with the bytes it has sent. -/
structure WsClient where
  headBuf : Bytes
  input : List Bytes
  sent : Bytes
  hasClosed : Bool
  dropped : Bytes

/-- The client behind the handshake, with what it has read beyond it. -/
def WsClient.start (headBuf : Bytes) (input : List Bytes) : WsClient :=
  { headBuf := headBuf
    input := input
    sent := []
    hasClosed := false
    dropped := [] }

/-- The loop of `async_read_ws` up to a whole header, with the same bound on its rounds: the status,
the object, and the header. -/
def WsClient.readHeader : ℕ → Websocket → WsClient →
    Option (WsHeaderStatus × Websocket × WsClient)
  | 0, _, _ => none
  | rounds + 1, ws, c =>
    (readExactly ws.leftHeaderLen c.input).bind fun r =>
      let c := { c with headBuf := c.headBuf ++ r.1, input := r.2 }
      match parseHeader ws c.headBuf c.headBuf.length false with
      | (.incomplete, ws) => readHeader rounds ws c
      | (status, ws) => some (status, ws, c)

/-- `"close"`. -/
def closeReason : Bytes := [99, 108, 111, 115, 101]

/-- The answer to a close frame: the reason is sent behind the header, not the masked payload. -/
def WsClient.answerClose (random : UInt32) (ws : Websocket) (c : WsClient) : WsClient :=
  let encoded := encodeFrame ws random (formatClosePayload closeCodeNormal closeReason)
    .close true false
  { c with
    sent := c.sent ++ encoded.1.msgHeader ++ closeReason
    hasClosed := true }

/-- `async_read_ws` behind a header. -/
def WsClient.readPayload (random : UInt32) (ws : Websocket) (c : WsClient) :
    Option (RespData × WsClient) :=
  let isCloseFrame := c.headBuf.getD 0 0 &&& 0x0F = 8
  let c := { c with headBuf := [] }
  (readExactly ws.payloadLength c.input).map fun r =>
    let c := { c with input := r.2 }
    if isCloseFrame then
      ({ status := 404
         netErr := true
         respBody := if 2 ≤ r.1.length then r.1.drop 2 else r.1 }, c.answerClose random ws)
    else ({ status := 200, respBody := r.1 }, c)

/-- `async_read_ws`; `none` where it waits for bytes that never come, and `random` is the value of
`rand()`. -/
def asyncReadWs (random : UInt32) (c : WsClient) : Option (RespData × WsClient) :=
  let c := { c with headBuf := [], dropped := c.dropped ++ c.headBuf }
  if c.hasClosed then some ({ netErr := true, status := 404 }, c)
  else
    (c.readHeader (c.input.flatten.length + 2) {}).bind fun r =>
      if r.1 ≠ .complete then
        some ({ netErr := true, status := 404 }, { r.2.2 with hasClosed := true })
      else r.2.2.readPayload random r.2.1

/-- Successive calls. -/
def asyncReadsWs (random : UInt32) : ℕ → WsClient → Option (List RespData × WsClient)
  | 0, c => some ([], c)
  | n + 1, c =>
    (asyncReadWs random c).bind fun r =>
      (asyncReadsWs random n r.2).map fun rs => (r.1 :: rs.1, rs.2)

/-! ### Sequences of frames -/

/-- The kinds of messages. -/
inductive MessageKind
  | text | binary
  deriving DecidableEq, Repr

/-- The message that is open behind a frame. -/
def Frame.openBehind (f : Frame) (current : Option MessageKind) : Option MessageKind :=
  match f.op with
  | .text => if f.eof then none else some .text
  | .binary => if f.eof then none else some .binary
  | .cont => if f.eof then none else current
  | _ => current

/-- A sequence of frames that may follow while a message is open or not. A close frame is the last
one. -/
def WellFormed : Option MessageKind → List Frame → Prop
  | _, [] => True
  | current, f :: rest =>
    (match f.op with
      | .text => current = none
      | .binary => current = none
      | .cont => current ≠ none
      | .ping => f.eof
      | .pong => f.eof
      | .close => f.eof ∧ rest = []
      | _ => False) ∧
      WellFormed (f.openBehind current) rest

/-- The type of a part of a message. -/
def MessageKind.frameType (kind : MessageKind) (eof : Bool) : WsFrameType :=
  match kind, eof with
  | .text, true => .text
  | .text, false => .incompleteText
  | .binary, true => .binary
  | .binary, false => .incompleteBinary

/-- The type of a frame, from the message it belongs to. -/
def Frame.messageType (f : Frame) (current : Option MessageKind) : WsFrameType :=
  match f.op, current with
  | .text, _ => MessageKind.text.frameType f.eof
  | .binary, _ => MessageKind.binary.frameType f.eof
  | .cont, some kind => kind.frameType f.eof
  | .close, _ => .close
  | .ping, _ => .ping
  | .pong, _ => .pong
  | _, _ => .error

/-- The types of the frames of a sequence. -/
def messageTypes : Option MessageKind → List Frame → List WsFrameType
  | _, [] => []
  | current, f :: rest => f.messageType current :: messageTypes (f.openBehind current) rest

/-- No binary message is continued. -/
def NoBinaryContinuation : Option MessageKind → List Frame → Prop
  | _, [] => True
  | current, f :: rest =>
    ¬ (f.op = .cont ∧ current = some .binary) ∧ NoBinaryContinuation (f.openBehind current) rest

/-! ### A call of the server -/

section Server

variable {f : ClientFrame} {c : WsConnection} {more : Bytes} {l : ℕ}

/-- The header and what was read with it. -/
theorem ClientFrame.take_stream (f : ClientFrame) (more : Bytes) (l : ℕ) :
    (f.encoded.1.msgHeader ++ more).take (l + (headLen f.payload.length).bytes) =
      f.encoded.1.msgHeader ++ more.take l := by
  rw [List.take_append, f.header_length, Nat.add_sub_cancel,
    List.take_of_length_le (by rw [f.header_length]; exact Nat.le_add_left _ _)]

/-- The header of a frame is read, and what was buffered behind it is dropped. -/
theorem WsConnection.readHeader_eq (hlen : c.ws.lenBytes = .shortHeader)
    (hbuf : c.headBuf = (f.encoded.1.msgHeader ++ more).take (l + 6))
    (hinput : c.input.flatten = (f.encoded.1.msgHeader ++ more).drop (l + 6))
    (hle : l ≤ more.length) :
    ∃ ws' input', c.readHeader (c.input.flatten.length + 1) = some (.complete, { c with
        ws := ws', headBuf := [], input := input', dropped := c.dropped ++ more.take l }) ∧
      ws'.lenBytes = .shortHeader ∧ HasHeader f.toFrame ws' ∧ ws'.maskKey = f.key ∧
      input'.flatten = more.drop l := by
  have hdrop : (f.encoded.1.msgHeader ++ more).drop (l + (headLen f.payload.length).bytes) =
      more.drop l := by
    rw [List.drop_append, f.header_length, Nat.add_sub_cancel,
      List.drop_of_length_le (by rw [f.header_length]; exact Nat.le_add_left _ _),
      List.nil_append]
  have hbehind : (f.encoded.1.msgHeader ++ more.take l).drop (headLen f.payload.length).bytes =
      more.take l := List.drop_left' f.header_length
  by_cases hshort : headLen f.payload.length = .shortHeader
  · -- six bytes are the whole header
    have htake := f.take_stream more l
    obtain ⟨ws', hparse, hheader, hkey⟩ := parseHeader_client c.ws f (more.take l)
    rw [hshort] at hdrop hbehind htake hparse
    refine ⟨ws'.resetLenBytes, c.input, ?_, rfl,
      ⟨hheader.fin, hheader.opcode, hheader.payloadLength⟩, hkey, hinput.trans hdrop⟩
    rw [WsConnection.readHeader]
    simp only [hlen, hbuf.trans htake, hparse, hbehind]
  · have hlong := WsHeadLen.lt_bytes hshort
    obtain ⟨bs, hbs⟩ := f.take_msgHeader (n := l + 6) (by omega) more
    obtain ⟨ws₁, hparse₁, hclass, hleft⟩ := parseHeader_client_take c.ws f bs hshort
    have hstream : (f.encoded.1.msgHeader ++ more).length =
        (headLen f.payload.length).bytes + more.length := by
      rw [List.length_append, f.header_length]
    have hmissing : (headLen f.payload.length).bytes - 6 ≤ c.input.flatten.length := by
      rw [hinput, List.length_drop, hstream]
      omega
    obtain ⟨input', hread, hrest⟩ := readExactly_of_le hmissing
    have hbuf' : c.headBuf ++ c.input.flatten.take ((headLen f.payload.length).bytes - 6) =
        f.encoded.1.msgHeader ++ more.take l := by
      have hsum : l + 6 + ((headLen f.payload.length).bytes - 6) =
          l + (headLen f.payload.length).bytes := by
        omega
      rw [hbuf, hinput, ← List.take_add, hsum, f.take_stream]
    obtain ⟨ws', hparse, hheader, hkey⟩ := parseHeader_client ws₁ f (more.take l)
    refine ⟨ws'.resetLenBytes, input', ?_, rfl,
      ⟨hheader.fin, hheader.opcode, hheader.payloadLength⟩, hkey, ?_⟩
    · obtain ⟨rounds, hrounds⟩ : ∃ rounds, c.input.flatten.length = rounds + 1 :=
        ⟨c.input.flatten.length - 1, by omega⟩
      have hsix : WsHeadLen.shortHeader.bytes = 6 := rfl
      rw [hrounds, WsConnection.readHeader]
      simp only [hlen, hbuf.trans hbs, hsix, hparse₁, hleft, hread, Option.bind_some]
      rw [← hbs, ← hbuf, hbuf', WsConnection.readHeader]
      simp only [hclass, hparse, hbehind]
    · have hsum : l + 6 + ((headLen f.payload.length).bytes - 6) =
          l + (headLen f.payload.length).bytes := by
        omega
      rw [hrest, hinput, List.drop_drop, hsum, hdrop]

/-- With too few bytes behind what is dropped, the rest of the header is waited for. -/
theorem WsConnection.readHeader_eq_none (hlen : c.ws.lenBytes = .shortHeader)
    (hbuf : c.headBuf = (f.encoded.1.msgHeader ++ more).take (l + 6))
    (hinput : c.input.flatten = (f.encoded.1.msgHeader ++ more).drop (l + 6))
    (henough : l + 6 ≤ (f.encoded.1.msgHeader ++ more).length) (hlt : more.length < l) :
    c.readHeader (c.input.flatten.length + 1) = none := by
  rw [List.length_append, f.header_length] at henough
  have hlong : headLen f.payload.length ≠ .shortHeader := by
    intro hshort
    rw [hshort, WsHeadLen.bytes] at henough
    omega
  obtain ⟨bs, hbs⟩ := f.take_msgHeader (n := l + 6) (by omega) more
  obtain ⟨ws₁, hparse₁, -, hleft⟩ := parseHeader_client_take c.ws f bs hlong
  have hnone : readExactly ((headLen f.payload.length).bytes - 6) c.input = none := by
    apply readExactly_eq_none
    rw [hinput, List.length_drop, List.length_append, f.header_length]
    omega
  have hsix : WsHeadLen.shortHeader.bytes = 6 := rfl
  rw [WsConnection.readHeader]
  simp only [hlen, hbuf.trans hbs, hsix, hparse₁, hleft, hnone, Option.bind_none]

/-- The type `parse_payload` gives a frame. -/
def Frame.parsedType (f : Frame) : WsFrameType :=
  match f.op with
  | .cont => if f.eof then .text else .incompleteText
  | .text => if f.eof then .text else .incompleteText
  | .binary => if f.eof then .binary else .incompleteBinary
  | .close => .close
  | .ping => .ping
  | .pong => .pong
  | _ => .error

theorem HasHeader.frameType {f : Frame} {ws : Websocket} (h : HasHeader f ws) :
    ws.frameType = f.parsedType := by
  obtain ⟨hfin, hopcode, -⟩ := h
  obtain ⟨payload, op, eof, needCompression, payload_lt⟩ := f
  rw [Websocket.frameType, hfin, hopcode]
  cases op <;> cases eof <;> rfl

/-- What a call returns for a frame. -/
def Frame.result (f : Frame) : WebsocketResult :=
  ((WsConnection.start [] []).returned f.parsedType f.payload).1

theorem WsConnection.returned_fst (c c' : WsConnection) (type : WsFrameType) (payload : Bytes) :
    (c.returned type payload).1 = (c'.returned type payload).1 := by
  cases type <;> rfl

/-- The reading side of the connection is left as it is. -/
theorem WsConnection.returned_snd (c : WsConnection) (type : WsFrameType) (payload : Bytes) :
    let c' := (c.returned type payload).2
    c'.ws.lenBytes = c.ws.lenBytes ∧ c'.headBuf = c.headBuf ∧ c'.input = c.input ∧
      c'.dropped = c.dropped ∧
      (type ≠ .close → type ≠ .error → c'.hasClosed = c.hasClosed) := by
  cases type
  · exact ⟨rfl, rfl, rfl, rfl, fun _ h => absurd rfl h⟩
  case close => exact ⟨rfl, rfl, rfl, rfl, fun h => absurd rfl h⟩
  all_goals exact ⟨rfl, rfl, rfl, rfl, fun _ _ => rfl⟩

/-- A frame is within the limit. -/
def Frame.Within (f : Frame) (maxPartSize : ℕ) : Prop :=
  maxPartSize = 0 ∨ f.payload.length ≤ maxPartSize

/-- A call whose header is complete goes on with the payload. -/
theorem readWebsocket_of_readHeader (maxPartSize : ℕ) {bs : Bytes} {input : List Bytes}
    {c' : WsConnection} (hopen : c.hasClosed = false)
    (hread : readExactly 6 c.input = some (bs, input))
    (hheader : { c with headBuf := c.headBuf ++ bs, input := input }.readHeader
      (input.flatten.length + 1) = some (.complete, c')) :
    readWebsocket maxPartSize c = c'.readPayload maxPartSize := by
  have hsix : WsHeadLen.shortHeader.bytes = 6 := rfl
  unfold readWebsocket
  rw [if_neg (by rw [hopen]; exact Bool.false_ne_true), hsix, hread]
  simp only [Option.bind_some]
  rw [hheader]
  rfl

/-- The payload of a frame is read behind its header. -/
theorem WsConnection.readPayload_eq {maxPartSize : ℕ} (hlimit : f.Within maxPartSize)
    (hhas : HasHeader f.toFrame c.ws) (hkey : c.ws.maskKey = f.key)
    (hinput : c.input.flatten = f.encoded.2 ++ more) :
    ∃ c', c.readPayload maxPartSize = some (f.result, c') ∧ c'.ws.lenBytes = c.ws.lenBytes ∧
      c'.headBuf = c.headBuf ∧ c'.input.flatten = more ∧ c'.dropped = c.dropped ∧
      (f.parsedType ≠ .close → f.parsedType ≠ .error → c'.hasClosed = c.hasClosed) := by
  have hbody : f.encoded.2.length = c.ws.payloadLength := by
    rw [f.encoded_payload, maskPayload_length, hhas.payloadLength]
  obtain ⟨input, hread, hrest⟩ := readExactly_append hinput hbody
  have hpayload : parsePayload c.ws f.encoded.2 = (f.parsedType, f.payload) := by
    rw [parsePayload_eq c.ws hbody, hkey, f.encoded_payload, maskPayload_maskPayload,
      hhas.frameType]
  have hfits : ¬ (maxPartSize ≠ 0 ∧ maxPartSize < c.ws.payloadLength) := by
    rw [hhas.payloadLength]
    rintro ⟨hne, hlt⟩
    obtain hzero | hle := hlimit
    · exact hne hzero
    · omega
  have hcall : c.readPayload maxPartSize =
      some ({ c with input := input }.returned f.parsedType f.payload) := by
    rw [WsConnection.readPayload, if_neg hfits, hread]
    simp only [Option.map_some, hpayload]
  have hresult : { c with input := input }.returned f.parsedType f.payload =
      (f.result, ({ c with input := input }.returned f.parsedType f.payload).2) :=
    Prod.ext (WsConnection.returned_fst _ _ _ _) rfl
  obtain ⟨hlen', hbuf', hinput', hdropped', hclosed'⟩ :=
    WsConnection.returned_snd { c with input := input } f.parsedType f.payload
  rw [hresult] at hcall
  exact ⟨_, hcall, hlen', hbuf', by rw [hinput', hrest], hdropped', hclosed'⟩

/-- A call on a stream of frames, behind which nothing is buffered. -/
theorem readWebsocket_eq {maxPartSize : ℕ} (hlimit : f.Within maxPartSize)
    (hlen : c.ws.lenBytes = .shortHeader) (hopen : c.hasClosed = false) (hbuf : c.headBuf = [])
    (hinput : c.input.flatten = f.wire ++ more) :
    ∃ c', readWebsocket maxPartSize c = some (f.result, c') ∧
      c'.ws.lenBytes = .shortHeader ∧ c'.headBuf = [] ∧ c'.input.flatten = more ∧
      c'.dropped = c.dropped ∧
      (f.parsedType ≠ .close → f.parsedType ≠ .error → c'.hasClosed = false) := by
  have hstream : c.input.flatten = f.encoded.1.msgHeader ++ (f.encoded.2 ++ more) := by
    rw [hinput, ClientFrame.wire, List.append_assoc]
  have hsix : 6 ≤ c.input.flatten.length := by
    have := (WsHeadLen.bytes_le (headLen f.payload.length)).1
    rw [hstream, List.length_append, f.header_length]
    omega
  obtain ⟨input₁, hread₁, hrest₁⟩ := readExactly_of_le hsix
  have hbuf₁ : c.headBuf ++ c.input.flatten.take 6 =
      (f.encoded.1.msgHeader ++ (f.encoded.2 ++ more)).take (0 + 6) := by
    rw [hbuf, hstream, List.nil_append]
  rw [hstream] at hrest₁
  obtain ⟨ws', input₂, hheader, hlen', hhas, hkey, hrest₂⟩ :=
    WsConnection.readHeader_eq
      (c := { c with headBuf := c.headBuf ++ c.input.flatten.take 6, input := input₁ })
      hlen hbuf₁ hrest₁ (Nat.zero_le _)
  have hcall := readWebsocket_of_readHeader maxPartSize hopen hread₁ hheader
  obtain ⟨c', hpayload, hlen₃, hbuf₃, hinput₃, hdropped₃, hclosed₃⟩ :=
    WsConnection.readPayload_eq (c := { c with
        ws := ws'
        headBuf := []
        input := input₂
        dropped := c.dropped ++ (f.encoded.2 ++ more).take 0 })
      hlimit hhas hkey hrest₂
  refine ⟨c', hcall.trans hpayload, hlen₃.trans hlen', hbuf₃, hinput₃, ?_,
    fun h h' => (hclosed₃ h h').trans hopen⟩
  rw [hdropped₃, List.take_zero, List.append_nil]

theorem WsConnection.readPayload_dropped {maxPartSize : ℕ} {r : WebsocketResult}
    {c' : WsConnection} (h : c.readPayload maxPartSize = some (r, c')) :
    c'.dropped = c.dropped := by
  rw [WsConnection.readPayload] at h
  split at h
  · rw [Option.some.injEq, Prod.mk.injEq] at h
    rw [← h.2]
    rfl
  · obtain ⟨⟨bs, input⟩, -, hreturned⟩ := Option.map_eq_some_iff.mp h
    have hdropped := (({ c with input := input } : WsConnection).returned_snd
      (parsePayload c.ws bs).1 (parsePayload c.ws bs).2).2.2.2.1
    rw [hreturned] at hdropped
    exact hdropped

/-- A call that finds something buffered drops a byte, if it returns. -/
theorem readWebsocket_dropped {maxPartSize : ℕ} {r : WebsocketResult} {c' : WsConnection}
    (hlen : c.ws.lenBytes = .shortHeader) (hopen : c.hasClosed = false) (hbuf : c.headBuf ≠ [])
    (hinput : c.headBuf ++ c.input.flatten = f.wire ++ more)
    (hcall : readWebsocket maxPartSize c = some (r, c')) : c'.dropped ≠ [] := by
  have hstream : c.headBuf ++ c.input.flatten =
      f.encoded.1.msgHeader ++ (f.encoded.2 ++ more) := by
    rw [hinput, ClientFrame.wire, List.append_assoc]
  have hsix : WsHeadLen.shortHeader.bytes = 6 := rfl
  by_cases hfirst : 6 ≤ c.input.flatten.length
  · obtain ⟨input₁, hread₁, hrest₁⟩ := readExactly_of_le hfirst
    have hbuf₁ : c.headBuf ++ c.input.flatten.take 6 =
        (f.encoded.1.msgHeader ++ (f.encoded.2 ++ more)).take (c.headBuf.length + 6) := by
      rw [← hstream, List.take_append, List.take_of_length_le (Nat.le_add_right _ _),
        Nat.add_sub_cancel_left]
    have hinput₁ : input₁.flatten =
        (f.encoded.1.msgHeader ++ (f.encoded.2 ++ more)).drop (c.headBuf.length + 6) := by
      rw [hrest₁, ← hstream, List.drop_append, List.drop_of_length_le (Nat.le_add_right _ _),
        Nat.add_sub_cancel_left, List.nil_append]
    by_cases hle : c.headBuf.length ≤ (f.encoded.2 ++ more).length
    · obtain ⟨ws', input₂, hheader, -⟩ := WsConnection.readHeader_eq
        (c := { c with headBuf := c.headBuf ++ c.input.flatten.take 6, input := input₁ })
        hlen hbuf₁ hinput₁ hle
      rw [readWebsocket_of_readHeader maxPartSize hopen hread₁ hheader] at hcall
      rw [WsConnection.readPayload_dropped hcall]
      intro hnil
      have hlength := congrArg List.length (List.append_eq_nil_iff.mp hnil).2
      rw [List.length_take, Nat.min_eq_left hle] at hlength
      exact hbuf (List.length_eq_zero_iff.mp hlength)
    · -- the rest of the header never comes
      have henough : c.headBuf.length + 6 ≤
          (f.encoded.1.msgHeader ++ (f.encoded.2 ++ more)).length := by
        rw [← hstream, List.length_append]
        omega
      have hnone := WsConnection.readHeader_eq_none
        (c := { c with headBuf := c.headBuf ++ c.input.flatten.take 6, input := input₁ })
        hlen hbuf₁ hinput₁ henough (by omega)
      unfold readWebsocket at hcall
      rw [if_neg (by rw [hopen]; exact Bool.false_ne_true), hsix, hread₁] at hcall
      simp only [Option.bind_some] at hcall
      rw [hnone] at hcall
      cases hcall
  · have hnone : readExactly 6 c.input = none := readExactly_eq_none (by omega)
    unfold readWebsocket at hcall
    rw [if_neg (by rw [hopen]; exact Bool.false_ne_true), hsix, hnone] at hcall
    cases hcall

/-- What is dropped stays dropped. -/
theorem WsConnection.readHeader_extends {rounds : ℕ} {c c' : WsConnection}
    {status : WsHeaderStatus} (h : c.readHeader rounds = some (status, c')) :
    c.dropped <+: c'.dropped := by
  induction rounds generalizing c with
  | zero => cases h
  | succ rounds ih =>
    rw [WsConnection.readHeader] at h
    split at h
    · rw [Option.some.injEq, Prod.mk.injEq] at h
      rw [← h.2]
      exact List.prefix_append _ _
    · obtain ⟨r, -, hrest⟩ := Option.bind_eq_some_iff.mp h
      have hkept := ih hrest
      exact hkept
    · rw [Option.some.injEq, Prod.mk.injEq] at h
      obtain ⟨-, rfl⟩ := h
      exact List.prefix_rfl

theorem readWebsocket_extends {maxPartSize : ℕ} {r : WebsocketResult} {c' : WsConnection}
    (h : readWebsocket maxPartSize c = some (r, c')) : c.dropped <+: c'.dropped := by
  rw [readWebsocket] at h
  split at h
  · rw [Option.some.injEq, Prod.mk.injEq] at h
    obtain ⟨-, rfl⟩ := h
    exact List.prefix_rfl
  · obtain ⟨r₁, -, h⟩ := Option.bind_eq_some_iff.mp h
    obtain ⟨⟨status, c₂⟩, hheader, h⟩ := Option.bind_eq_some_iff.mp h
    have hkept := WsConnection.readHeader_extends hheader
    split at h
    · rw [Option.some.injEq, Prod.mk.injEq] at h
      rw [← h.2]
      exact hkept
    · rw [WsConnection.readPayload_dropped h]
      exact hkept

theorem readWebsockets_extends {maxPartSize n : ℕ} {rs : List WebsocketResult}
    {c c' : WsConnection} (h : readWebsockets maxPartSize n c = some (rs, c')) :
    c.dropped <+: c'.dropped := by
  induction n generalizing c rs with
  | zero =>
    rw [readWebsockets, Option.some.injEq, Prod.mk.injEq] at h
    obtain ⟨-, rfl⟩ := h
    exact List.prefix_rfl
  | succ n ih =>
    obtain ⟨⟨r, c₁⟩, hcall, h⟩ := Option.bind_eq_some_iff.mp h
    obtain ⟨⟨rs', c₂⟩, hrest, hpair⟩ := Option.map_eq_some_iff.mp h
    obtain rfl : c₂ = c' := congrArg Prod.snd hpair
    exact (readWebsocket_extends hcall).trans (ih hrest)

end Server

/-! ### Runs of the server -/

/-- The frames a client sends, without what only the client knows. -/
abbrev frames (fs : List ClientFrame) : List Frame := fs.map ClientFrame.toFrame

/-- Every call returns a frame with the type of its message, and no byte is dropped. -/
def ServerIntact (maxPartSize : ℕ) (fs : List ClientFrame) (headBuf : Bytes)
    (segs : List Bytes) : Prop :=
  ∃ rs c', readWebsockets maxPartSize fs.length (.start headBuf segs) = some (rs, c') ∧
    rs.map WebsocketResult.type = (messageTypes none (frames fs)).map some ∧
    List.Forall₂ (fun (f : ClientFrame) (r : WebsocketResult) =>
      r.ec = none ∧ (f.op ≠ .close → r.data = f.payload)) fs rs ∧
    c'.dropped = []

/-- A frame of a sequence is of a known kind, and the last one if it is a close frame. -/
theorem WellFormed.parsedType {current : Option MessageKind} {f : Frame} {rest : List Frame}
    (h : WellFormed current (f :: rest)) :
    f.parsedType ≠ .error ∧ (f.parsedType = .close → rest = []) ∧
      (f.parsedType = .close → f.op = .close) := by
  obtain ⟨payload, op, eof, needCompression, payload_lt⟩ := f
  obtain ⟨hop, -⟩ := h
  cases op <;> cases eof <;> simp_all [Frame.parsedType]

/-- Calls on a stream of frames, behind which nothing is buffered. -/
theorem readWebsockets_eq {maxPartSize : ℕ} {fs : List ClientFrame}
    {current : Option MessageKind} {c : WsConnection} (hwf : WellFormed current (frames fs))
    (hlimit : ∀ f ∈ fs, f.Within maxPartSize) (hlen : c.ws.lenBytes = .shortHeader)
    (hopen : fs ≠ [] → c.hasClosed = false) (hbuf : c.headBuf = [])
    (hinput : c.input.flatten = fs.flatMap ClientFrame.wire) :
    ∃ c', readWebsockets maxPartSize fs.length c = some (fs.map fun f => f.result, c') ∧
      c'.dropped = c.dropped := by
  induction fs generalizing current c with
  | nil => exact ⟨c, rfl, rfl⟩
  | cons f fs ih =>
    rw [List.flatMap_cons] at hinput
    obtain ⟨c₁, hcall, hlen₁, hbuf₁, hinput₁, hdropped₁, hopen₁⟩ :=
      readWebsocket_eq (hlimit f (List.mem_cons_self ..)) hlen (hopen (List.cons_ne_nil f fs))
        hbuf hinput
    obtain ⟨hknown, hlast, -⟩ := hwf.parsedType
    have hopen₁ : fs ≠ [] → c₁.hasClosed = false := by
      intro hne
      apply hopen₁ _ hknown
      intro hclose
      exact hne (List.map_eq_nil_iff.mp (hlast hclose))
    obtain ⟨c', hcalls, hdropped⟩ := ih hwf.2
      (fun g hg => hlimit g (List.mem_cons_of_mem f hg)) hlen₁ hopen₁ hbuf₁ hinput₁
    refine ⟨c', ?_, hdropped.trans hdropped₁⟩
    rw [List.length_cons, readWebsockets, hcall, Option.bind_some, hcalls]
    rfl

theorem Frame.result_type (f : Frame) : f.result.type = some f.parsedType := by
  rw [Frame.result]
  cases f.parsedType <;> rfl

theorem Frame.result_data (f : Frame) (h : f.parsedType ≠ .close) (h' : f.parsedType ≠ .error) :
    f.result.data = f.payload := by
  rw [Frame.result]
  cases hty : f.parsedType <;> first | rfl | contradiction

theorem Frame.result_ec (f : Frame) (h : f.parsedType ≠ .error) : f.result.ec = none := by
  rw [Frame.result]
  cases hty : f.parsedType <;> first | rfl | contradiction

/-- A frame is parsed with the type of its message, unless it continues a binary one. -/
theorem WellFormed.parsedType_iff {current : Option MessageKind} {f : Frame} {rest : List Frame}
    (h : WellFormed current (f :: rest)) :
    f.parsedType = f.messageType current ↔ ¬ (f.op = .cont ∧ current = some .binary) := by
  obtain ⟨payload, op, eof, needCompression, payload_lt⟩ := f
  obtain ⟨hop, -⟩ := h
  cases op <;> cases eof <;> rcases current with _ | _ | _ <;>
    simp_all [Frame.parsedType, Frame.messageType, MessageKind.frameType]

/-- The types of all frames are those of their messages if no binary message is continued. -/
theorem WellFormed.messageTypes_iff {current : Option MessageKind} {fs : List Frame}
    (h : WellFormed current fs) :
    fs.map Frame.parsedType = messageTypes current fs ↔ NoBinaryContinuation current fs := by
  induction fs generalizing current with
  | nil => simp [messageTypes, NoBinaryContinuation]
  | cons f fs ih =>
    rw [List.map_cons, messageTypes, NoBinaryContinuation, List.cons.injEq, h.parsedType_iff,
      ih h.2]

/-- The data of all frames are returned. -/
theorem forall₂_result {current : Option MessageKind} {fs : List ClientFrame}
    (h : WellFormed current (frames fs)) :
    List.Forall₂ (fun (f : ClientFrame) (r : WebsocketResult) =>
      r.ec = none ∧ (f.op ≠ .close → r.data = f.payload)) fs (fs.map fun f => f.result) := by
  induction fs generalizing current with
  | nil => exact .nil
  | cons f fs ih =>
    obtain ⟨hknown, -, hclose⟩ := h.parsedType
    refine .cons ⟨f.result_ec hknown, fun hop => ?_⟩ (ih h.2)
    exact f.result_data (fun hparsed => hop (hclose hparsed)) hknown

/-- When the server returns all frames. -/
theorem serverIntact_iff {maxPartSize : ℕ} {fs : List ClientFrame} {headBuf : Bytes}
    {segs : List Bytes} (hwf : WellFormed none (frames fs))
    (hlimit : ∀ f ∈ fs, f.Within maxPartSize)
    (hstream : headBuf ++ segs.flatten = fs.flatMap ClientFrame.wire) :
    ServerIntact maxPartSize fs headBuf segs ↔
      headBuf = [] ∧ NoBinaryContinuation none (frames fs) := by
  by_cases hbuf : headBuf = []
  · subst hbuf
    obtain ⟨c', hcalls, hdropped⟩ := readWebsockets_eq (c := .start [] segs) hwf hlimit rfl
      (fun _ => rfl) rfl hstream
    have htypes : (fs.map fun f => f.result).map WebsocketResult.type =
        ((frames fs).map Frame.parsedType).map some := by
      simp [Frame.result_type, Function.comp_def]
    have hsome : ∀ {xs ys : List WsFrameType}, xs.map some = ys.map some ↔ xs = ys :=
      (List.map_injective_iff.mpr (Option.some_injective _)).eq_iff
    constructor
    · rintro ⟨rs, c'', hcalls', hrs, -, -⟩
      rw [hcalls, Option.some.injEq, Prod.mk.injEq] at hcalls'
      rw [← hcalls'.1, htypes, hsome, hwf.messageTypes_iff] at hrs
      exact ⟨rfl, hrs⟩
    · rintro ⟨-, hcont⟩
      refine ⟨_, c', hcalls, ?_, ?_, hdropped⟩
      · rw [htypes, hsome, hwf.messageTypes_iff]
        exact hcont
      · exact forall₂_result hwf
  · -- the first call takes what is buffered with the header
    refine ⟨?_, fun h => absurd h.1 hbuf⟩
    rintro ⟨rs, c', hcalls, -, -, hdropped⟩
    exfalso
    cases fs with
    | nil =>
      rw [List.flatMap_nil, List.append_eq_nil_iff] at hstream
      exact hbuf hstream.1
    | cons f fs =>
      obtain ⟨⟨r, c₁⟩, hcall, hrest⟩ := Option.bind_eq_some_iff.mp hcalls
      obtain ⟨⟨rs', c₂⟩, hcalls', hpair⟩ := Option.map_eq_some_iff.mp hrest
      obtain rfl : c₂ = c' := congrArg Prod.snd hpair
      have hlost := readWebsocket_dropped (c := .start headBuf segs) rfl rfl hbuf hstream hcall
      have hkept := readWebsockets_extends hcalls'
      rw [hdropped, List.prefix_nil] at hkept
      exact hlost hkept

/-! ### The client -/

section Client

variable {f : Frame} {c : WsClient} {more : Bytes}

/-- The header of a frame is read, and nothing behind it. -/
theorem WsClient.readHeader_eq (rounds : ℕ) (hbuf : c.headBuf = [])
    (hinput : c.input.flatten = (f.hdr false).toBytes ++ (extendedLen f.payload.length ++ more)) :
    ∃ ws' input', c.readHeader (rounds + 2) {} = some (.complete, ws', { c with
        headBuf := (f.hdr false).toBytes ++ extendedLen f.payload.length, input := input' }) ∧
      HasHeader f ws' ∧ input'.flatten = more := by
  obtain ⟨input₁, hread₁, hrest₁⟩ := readExactly_append hinput (f.hdr false).toBytes_length
  have htwo : Websocket.leftHeaderLen {} = 2 := rfl
  by_cases hshort : headLen f.payload.length = .shortHeader
  · -- two bytes are the whole header
    have hnone : extendedLen f.payload.length = [] := by
      have hlength := extendedLen_length f.payload.length
      rw [hshort, WsHeadLen.clientBytes] at hlength
      apply List.length_eq_zero_iff.mp
      omega
    obtain ⟨ws', hparse, hheader⟩ := parseHeader_server {} f
    rw [hnone, List.append_nil, hshort, WsHeadLen.clientBytes] at hparse
    rw [hnone, List.nil_append] at hrest₁
    refine ⟨ws', input₁, ?_, hheader, hrest₁⟩
    rw [WsClient.readHeader, htwo, hread₁, Option.bind_some]
    simp only [hbuf, List.nil_append, FrameHeader.toBytes_length, hparse, hnone, List.append_nil]
  · have hlength := extendedLen_length f.payload.length
    obtain ⟨ws₁, hparse₁, hleft⟩ := parseHeader_server_take {} f hshort
    have hmissing : (extendedLen f.payload.length).length = ws₁.leftHeaderLen := by
      omega
    obtain ⟨input₂, hread₂, hrest₂⟩ := readExactly_append hrest₁ hmissing
    obtain ⟨ws', hparse, hheader⟩ := parseHeader_server ws₁ f
    have hsize : ((f.hdr false).toBytes ++ extendedLen f.payload.length).length =
        (headLen f.payload.length).clientBytes := by
      rw [List.length_append, FrameHeader.toBytes_length, hlength]
    refine ⟨ws', input₂, ?_, hheader, hrest₂⟩
    rw [WsClient.readHeader, htwo, hread₁, Option.bind_some]
    simp only [hbuf, List.nil_append, FrameHeader.toBytes_length, hparse₁]
    rw [WsClient.readHeader, hread₂, Option.bind_some]
    simp only [hsize, hparse]

/-- What a call returns for a frame. -/
def Frame.clientResult (f : Frame) : RespData :=
  if f.op = .close then
    { status := 404
      netErr := true
      respBody := if 2 ≤ f.payload.length then f.payload.drop 2 else f.payload }
  else { status := 200, respBody := f.payload }

theorem Opcode.value_eq_close (op : Opcode) :
    (⟨op.value.setWidth 8⟩ : UInt8) = 8 ↔ op = .close := by
  cases op <;> decide

/-- The payload of a frame is read behind its header. -/
theorem WsClient.readPayload_eq (random : UInt32) {ws : Websocket}
    (hbuf : c.headBuf = (f.hdr false).toBytes ++ more) (hhas : HasHeader f ws) {rest : Bytes}
    (hinput : c.input.flatten = f.payload ++ rest) :
    ∃ c', c.readPayload random ws = some (f.clientResult, c') ∧ c'.headBuf = [] ∧
      c'.input.flatten = rest ∧ c'.dropped = c.dropped ∧
      (f.op ≠ .close → c'.hasClosed = c.hasClosed) := by
  obtain ⟨input, hread, hrest⟩ := readExactly_append hinput hhas.payloadLength.symm
  have hopcode : c.headBuf.getD 0 0 &&& 0x0F = 8 ↔ f.op = .close := by
    rw [hbuf, FrameHeader.toBytes, List.cons_append, List.getD_cons_zero, opcode_bits]
    exact f.op.value_eq_close
  by_cases hclose : f.op = .close
  · refine ⟨{ c with headBuf := [], input := input }.answerClose random ws, ?_, rfl, hrest, rfl,
      fun h => absurd hclose h⟩
    rw [WsClient.readPayload, hread, Frame.clientResult, if_pos hclose]
    simp only [Option.map_some, hopcode, hclose, if_true]
  · refine ⟨{ c with headBuf := [], input := input }, ?_, rfl, hrest, rfl, fun _ => rfl⟩
    rw [WsClient.readPayload, hread, Frame.clientResult, if_neg hclose]
    simp only [Option.map_some, hopcode, hclose, if_false]

/-- A call on a stream of frames, behind which nothing is buffered. -/
theorem asyncReadWs_eq (random : UInt32) (hopen : c.hasClosed = false) (hbuf : c.headBuf = [])
    (hinput : c.input.flatten = f.wire ++ more) :
    ∃ c', asyncReadWs random c = some (f.clientResult, c') ∧ c'.headBuf = [] ∧
      c'.input.flatten = more ∧ c'.dropped = c.dropped ∧
        (f.op ≠ .close → c'.hasClosed = false) := by
  have hstream : c.input.flatten =
      (f.hdr false).toBytes ++ (extendedLen f.payload.length ++ (f.payload ++ more)) := by
    rw [hinput, Frame.wire]
    simp only [List.append_assoc]
  obtain ⟨ws', input₁, hheader, hhas, hrest₁⟩ := WsClient.readHeader_eq
    (c := { c with headBuf := [], dropped := c.dropped ++ c.headBuf })
    c.input.flatten.length rfl hstream
  obtain ⟨c', hpayload, hbuf', hinput', hdropped', hclosed'⟩ := WsClient.readPayload_eq
    (c := { c with
      headBuf := (f.hdr false).toBytes ++ extendedLen f.payload.length
      dropped := c.dropped ++ c.headBuf
      input := input₁ })
    random rfl hhas hrest₁
  refine ⟨c', ?_, hbuf', hinput', ?_, fun h => (hclosed' h).trans hopen⟩
  · unfold asyncReadWs
    simp only
    rw [if_neg (by rw [hopen]; exact Bool.false_ne_true), hheader, Option.bind_some]
    exact hpayload
  · rw [hdropped', hbuf, List.append_nil]

theorem WsClient.readHeader_dropped {rounds : ℕ} {ws ws' : Websocket} {c c' : WsClient}
    {status : WsHeaderStatus} (h : c.readHeader rounds ws = some (status, ws', c')) :
    c'.dropped = c.dropped := by
  induction rounds generalizing ws c with
  | zero => cases h
  | succ rounds ih =>
    obtain ⟨⟨bs, input⟩, -, hparse⟩ := Option.bind_eq_some_iff.mp h
    simp only at hparse
    split at hparse
    · have hkept := ih hparse
      exact hkept
    · simp only [Option.some.injEq, Prod.mk.injEq] at hparse
      rw [← hparse.2.2]

/-- What is buffered when a call starts is dropped, and stays so. -/
theorem asyncReadWs_dropped {random : UInt32} {r : RespData} {c' : WsClient}
    (h : asyncReadWs random c = some (r, c')) : c'.dropped = c.dropped ++ c.headBuf := by
  unfold asyncReadWs at h
  simp only at h
  split at h
  · rw [Option.some.injEq, Prod.mk.injEq] at h
    rw [← h.2]
  · obtain ⟨⟨status, ws, c₁⟩, hheader, h⟩ := Option.bind_eq_some_iff.mp h
    have hkept := WsClient.readHeader_dropped hheader
    simp only at h
    split at h
    · rw [Option.some.injEq, Prod.mk.injEq] at h
      rw [← h.2]
      exact hkept
    · obtain ⟨⟨bs, input⟩, -, h⟩ := Option.map_eq_some_iff.mp h
      simp only at h
      split at h <;> rw [Prod.mk.injEq] at h <;> rw [← h.2] <;> exact hkept

theorem asyncReadsWs_extends {random : UInt32} {n : ℕ} {rs : List RespData} {c c' : WsClient}
    (h : asyncReadsWs random n c = some (rs, c')) : c.dropped <+: c'.dropped := by
  induction n generalizing c rs with
  | zero =>
    rw [asyncReadsWs, Option.some.injEq, Prod.mk.injEq] at h
    obtain ⟨-, rfl⟩ := h
    exact List.prefix_rfl
  | succ n ih =>
    obtain ⟨⟨r, c₁⟩, hcall, h⟩ := Option.bind_eq_some_iff.mp h
    obtain ⟨⟨rs', c₂⟩, hrest, hpair⟩ := Option.map_eq_some_iff.mp h
    obtain rfl : c₂ = c' := congrArg Prod.snd hpair
    have hfirst : c.dropped <+: c₁.dropped := by
      rw [asyncReadWs_dropped hcall]
      exact List.prefix_append _ _
    exact hfirst.trans (ih hrest)

end Client

/-! ### Runs of the client -/

/-- Every call returns a frame, of which the application tells the type by `typeOf`, and no byte is
dropped. -/
def ClientIntact (typeOf : RespData → WsFrameType) (random : UInt32) (fs : List Frame)
    (headBuf : Bytes) (segs : List Bytes) : Prop :=
  ∃ rs c', asyncReadsWs random fs.length (.start headBuf segs) = some (rs, c') ∧
    rs.map typeOf = messageTypes none fs ∧
    List.Forall₂ (fun (f : Frame) (r : RespData) =>
      f.op ≠ .close → r.status = 200 ∧ r.netErr = false ∧ r.respBody = f.payload) fs rs ∧
    c'.dropped = []

/-- Calls on a stream of frames, behind which nothing is buffered. -/
theorem asyncReadsWs_eq (random : UInt32) {fs : List Frame} {current : Option MessageKind}
    {c : WsClient} (hwf : WellFormed current fs) (hopen : fs ≠ [] → c.hasClosed = false)
    (hbuf : c.headBuf = []) (hinput : c.input.flatten = fs.flatMap Frame.wire) :
    ∃ c', asyncReadsWs random fs.length c = some (fs.map Frame.clientResult, c') ∧
      c'.dropped = c.dropped := by
  induction fs generalizing current c with
  | nil => exact ⟨c, rfl, rfl⟩
  | cons f fs ih =>
    rw [List.flatMap_cons] at hinput
    obtain ⟨c₁, hcall, hbuf₁, hinput₁, hdropped₁, hopen₁⟩ :=
      asyncReadWs_eq random (hopen (List.cons_ne_nil f fs)) hbuf hinput
    have hopen₁ : fs ≠ [] → c₁.hasClosed = false := by
      intro hne
      apply hopen₁
      intro hclose
      obtain ⟨hop, -⟩ := hwf
      rw [hclose] at hop
      exact hne hop.2
    obtain ⟨c', hcalls, hdropped⟩ := ih hwf.2 hopen₁ hbuf₁ hinput₁
    refine ⟨c', ?_, hdropped.trans hdropped₁⟩
    rw [List.length_cons, asyncReadsWs, hcall, Option.bind_some, hcalls]
    rfl

/-- The payloads of all frames are returned. -/
theorem forall₂_clientResult (fs : List Frame) :
    List.Forall₂ (fun (f : Frame) (r : RespData) =>
      f.op ≠ .close → r.status = 200 ∧ r.netErr = false ∧ r.respBody = f.payload) fs
      (fs.map Frame.clientResult) := by
  induction fs with
  | nil => exact .nil
  | cons f fs ih =>
    refine .cons (fun hop => ?_) ih
    rw [Frame.clientResult, if_neg hop]
    exact ⟨rfl, rfl, rfl⟩

/-- When the client returns all frames. -/
theorem clientIntact_iff {typeOf : RespData → WsFrameType} {random : UInt32} {fs : List Frame}
    {headBuf : Bytes} {segs : List Bytes} (hwf : WellFormed none fs)
    (hstream : headBuf ++ segs.flatten = fs.flatMap Frame.wire) :
    ClientIntact typeOf random fs headBuf segs ↔
      headBuf = [] ∧ fs.map (fun f => typeOf f.clientResult) = messageTypes none fs := by
  by_cases hbuf : headBuf = []
  · subst hbuf
    obtain ⟨c', hcalls, hdropped⟩ := asyncReadsWs_eq random (c := .start [] segs) hwf
      (fun _ => rfl) rfl hstream
    constructor
    · rintro ⟨rs, c'', hcalls', hrs, -, -⟩
      rw [hcalls, Option.some.injEq, Prod.mk.injEq] at hcalls'
      rw [← hcalls'.1, List.map_map] at hrs
      exact ⟨rfl, hrs⟩
    · rintro ⟨-, htypes⟩
      refine ⟨_, c', hcalls, ?_, forall₂_clientResult fs, hdropped⟩
      rw [List.map_map]
      exact htypes
  · refine ⟨?_, fun h => absurd h.1 hbuf⟩
    rintro ⟨rs, c', hcalls, -, -, hdropped⟩
    exfalso
    cases fs with
    | nil =>
      rw [List.flatMap_nil, List.append_eq_nil_iff] at hstream
      exact hbuf hstream.1
    | cons f fs =>
      obtain ⟨⟨r, c₁⟩, hcall, hrest⟩ := Option.bind_eq_some_iff.mp hcalls
      obtain ⟨⟨rs', c₂⟩, hcalls', hpair⟩ := Option.map_eq_some_iff.mp hrest
      obtain rfl : c₂ = c' := congrArg Prod.snd hpair
      have hkept := asyncReadsWs_extends hcalls'
      rw [hdropped, List.prefix_nil, asyncReadWs_dropped hcall] at hkept
      exact hbuf hkept

/-! ### What a client can tell -/

/-- Frames with equal payloads are of equal types. A close frame is told by its status. -/
def TypesTold (fs : List Frame) : Prop :=
  ∀ (i j : ℕ) (f g : Frame), fs[i]? = some f → fs[j]? = some g → f.op ≠ .close → g.op ≠ .close →
    f.payload = g.payload → (messageTypes none fs)[i]? = (messageTypes none fs)[j]?

theorem length_messageTypes (current : Option MessageKind) (fs : List Frame) :
    (messageTypes current fs).length = fs.length := by
  induction fs generalizing current with
  | nil => rfl
  | cons f fs ih => rw [messageTypes, List.length_cons, ih, List.length_cons]

theorem messageTypes_of_close {current : Option MessageKind} {fs : List Frame} {i : ℕ} {f : Frame}
    (hf : fs[i]? = some f) (hop : f.op = .close) :
    (messageTypes current fs)[i]? = some .close := by
  induction fs generalizing current i with
  | nil => cases hf
  | cons g fs ih =>
    rw [messageTypes]
    cases i with
    | zero =>
      obtain rfl : g = f := by simpa using hf
      simp only [List.getElem?_cons_zero, Frame.messageType, hop]
    | succ i =>
      rw [List.getElem?_cons_succ] at hf ⊢
      exact ih hf

/-- Equal results are of frames of equal types, where equal payloads are. -/
theorem TypesTold.factorsThrough {fs : List Frame} (h : TypesTold fs) :
    (fun i : ℕ => (messageTypes none fs)[i]?).FactorsThrough
      fun i : ℕ => fs[i]?.map Frame.clientResult := by
  intro i j hresult
  dsimp only at hresult ⊢
  cases hi : fs[i]? with
  | none =>
    rw [hi, Option.map_none, eq_comm, Option.map_eq_none_iff, List.getElem?_eq_none_iff] at hresult
    rw [List.getElem?_eq_none_iff] at hi
    rw [← length_messageTypes none] at hi hresult
    rw [List.getElem?_eq_none hi, List.getElem?_eq_none hresult]
  | some f =>
    rw [hi, Option.map_some, eq_comm] at hresult
    obtain ⟨g, hj, hresult⟩ := Option.map_eq_some_iff.mp hresult
    by_cases hf : f.op = .close <;> by_cases hg : g.op = .close
    · rw [messageTypes_of_close hi hf, messageTypes_of_close hj hg]
    -- the status of a close frame is no other frame's
    · simp [Frame.clientResult, hf, hg] at hresult
    · simp [Frame.clientResult, hf, hg] at hresult
    · rw [Frame.clientResult, Frame.clientResult, if_neg hf, if_neg hg] at hresult
      exact h i j f g hi hj hf hg (RespData.mk.inj hresult).2.2.symm

/-- An application can tell the types of all frames if equal payloads are of equal types. -/
theorem exists_typeOf_iff {fs : List Frame} :
    (∃ typeOf : RespData → WsFrameType,
      fs.map (fun f => typeOf f.clientResult) = messageTypes none fs) ↔ TypesTold fs := by
  constructor
  · rintro ⟨typeOf, htypes⟩ i j f g hi hj hf hg hpayload
    have hresult : f.clientResult = g.clientResult := by
      rw [Frame.clientResult, Frame.clientResult, if_neg hf, if_neg hg, hpayload]
    rw [← htypes, List.getElem?_map, List.getElem?_map, hi, hj, Option.map_some, Option.map_some,
      hresult]
  · intro h
    obtain ⟨e, he⟩ := (Function.factorsThrough_iff _).mp h.factorsThrough
    refine ⟨fun r => (e (some r)).getD .error, ?_⟩
    apply List.ext_getElem?
    intro i
    have htype : (messageTypes none fs)[i]? = e (fs[i]?.map Frame.clientResult) := congrFun he i
    rw [List.getElem?_map]
    cases hi : fs[i]? with
    | none =>
      rw [List.getElem?_eq_none_iff, ← length_messageTypes none] at hi
      rw [Option.map_none, List.getElem?_eq_none hi]
    | some f =>
      rw [hi, Option.map_some] at htype
      obtain ⟨hlt, -⟩ := List.getElem?_eq_some_iff.mp hi
      rw [← length_messageTypes none] at hlt
      dsimp only [Option.map_some]
      rw [← htype, List.getElem?_eq_getElem hlt, Option.getD_some]

/-! ### Both directions -/

/-- A server returns the frames of every message if its handshake reads nothing beyond its end and
no binary message is continued. A client returns them if its handshake reads nothing beyond its end
and the application can tell the type of each frame from its result, which some application can if
frames with equal payloads are of equal types. -/
theorem messages_intact_iff (maxPartSize : ℕ) (typeOf : RespData → WsFrameType) (random : UInt32)
    (fromClient : List ClientFrame) (headBuf : Bytes) (segs : List Bytes)
    (hclient : WellFormed none (frames fromClient))
    (hlimit : ∀ f ∈ fromClient, f.Within maxPartSize)
    (hsegs : headBuf ++ segs.flatten = fromClient.flatMap ClientFrame.wire)
    (fromServer : List Frame) (headBuf' : Bytes) (segs' : List Bytes)
    (hserver : WellFormed none fromServer)
    (hsegs' : headBuf' ++ segs'.flatten = fromServer.flatMap Frame.wire) :
    (ServerIntact maxPartSize fromClient headBuf segs ↔
      headBuf = [] ∧ NoBinaryContinuation none (frames fromClient)) ∧
    (ClientIntact typeOf random fromServer headBuf' segs' ↔
      headBuf' = [] ∧
        fromServer.map (fun f => typeOf f.clientResult) = messageTypes none fromServer) ∧
    ((∃ typeOf, ClientIntact typeOf random fromServer headBuf' segs') ↔
      headBuf' = [] ∧ TypesTold fromServer) := by
  refine ⟨serverIntact_iff hclient hlimit hsegs, clientIntact_iff hserver hsegs', ?_⟩
  rw [← exists_typeOf_iff, ← exists_and_left]
  exact exists_congr fun typeOf => clientIntact_iff hserver hsegs'

/-- A text of two frames with a ping between them, from a client. -/
def sampleText : List ClientFrame :=
  [{ sampleFrame with eof := false },
    { sampleFrame with payload := [33], op := .ping, payload_lt := by decide },
    { sampleFrame with payload := [10], op := .cont, payload_lt := by decide }]

/-- A binary message of two frames, a text and a ping, from a server. -/
def sampleAnswers : List Frame :=
  [{ samplePing with payload := [1, 2], op := .binary, eof := false, payload_lt := by decide },
    { samplePing with payload := [3], op := .cont, payload_lt := by decide },
    { samplePing with payload := [111, 107], op := .text, payload_lt := by decide }, samplePing]

/-- An application that tells the parts of that message by their first byte, and a ping by its
having none. -/
def sampleTypeOf (r : RespData) : WsFrameType :=
  match r.respBody with
  | [] => .ping
  | 1 :: _ => .incompleteBinary
  | 3 :: _ => .binary
  | _ => .text

theorem messages_intact_iff_sample :
    ServerIntact 4 sampleText [] [(sampleText.flatMap ClientFrame.wire).take 5,
        (sampleText.flatMap ClientFrame.wire).drop 5] ∧
      ClientIntact sampleTypeOf 0 sampleAnswers []
        [(sampleAnswers.flatMap Frame.wire).take 3, (sampleAnswers.flatMap Frame.wire).drop 3] := by
  have hlimit : ∀ f ∈ sampleText, f.payload.length ≤ 4 := by decide
  have h := messages_intact_iff 4 sampleTypeOf 0 sampleText []
    [(sampleText.flatMap ClientFrame.wire).take 5, (sampleText.flatMap ClientFrame.wire).drop 5]
    ⟨rfl, rfl, Option.some_ne_none _, trivial⟩ (fun f hf => .inr (hlimit f hf)) (by simp)
    sampleAnswers []
    [(sampleAnswers.flatMap Frame.wire).take 3, (sampleAnswers.flatMap Frame.wire).drop 3]
    ⟨rfl, Option.some_ne_none _, rfl, rfl, trivial⟩ (by simp)
  -- the frame that goes on with a message belongs to a text
  have htext : NoBinaryContinuation none (frames sampleText) :=
    ⟨by decide, by decide, by decide, trivial⟩
  exact ⟨h.1.mpr ⟨rfl, htext⟩, h.2.1.mpr ⟨rfl, by decide⟩⟩

/-- A binary message of two frames. -/
def sampleBinary : List ClientFrame :=
  [{ sampleFrame with op := .binary, eof := false }, { sampleFrame with op := .cont }]

/-- A server loses what is read with the upgrade request and returns the rest of a binary message as
text, and a client loses what is read with the handshake response. -/
theorem not_messages_intact :
    ¬ ServerIntact 0 [sampleFrame, sampleFrame] sampleFrame.wire [sampleFrame.wire] ∧
      ¬ ServerIntact 0 sampleBinary [] [sampleBinary.flatMap ClientFrame.wire] ∧
      ∀ typeOf random, ¬ ClientIntact typeOf random [samplePing, samplePing]
        samplePing.wire [samplePing.wire] := by
  refine ⟨fun h => ?_, fun h => ?_, fun typeOf random h => ?_⟩
  · rw [serverIntact_iff ?wf (fun f _ => .inl rfl) (by simp)] at h
    · exact absurd h.1 (by decide)
    case wf => exact ⟨rfl, rfl, trivial⟩
  · rw [serverIntact_iff ?wf (fun f _ => .inl rfl) (by simp)] at h
    · exact h.2.2.1 ⟨rfl, rfl⟩
    case wf => exact ⟨rfl, by decide, trivial⟩
  · rw [clientIntact_iff ?wf (by simp)] at h
    · exact absurd h.1 (by decide)
    case wf => exact ⟨rfl, rfl, trivial⟩

end Yalantinglibs.Cinatra
