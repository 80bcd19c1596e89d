import Yalantinglibs.Cinatra.Websocket
import Yalantinglibs.Data.SegmentedStream

/-!
# A frame that is written is read back

The loops around `parse_header`: `read_websocket` of `coro_http_connection.hpp`, which reads six
bytes first and then what the header still misses, and `async_read_ws` of `coro_http_client.hpp`,
which starts with two bytes and a new object for every frame.

A server writes with the object it reads with, and may do so while it waits for bytes. A side is
therefore a state that takes one step at a time: it reads up to where the next bytes are awaited,
or writes a frame.

## Main definitions

* `Frame`, `ClientFrame` — what is sent, and what a client puts on the wire for it
* `ServerSide.read`, `ServerSide.write` — the steps of a server
* `ClientSide.read` — the steps of a client

## Main results

* `frames_recovered` — both sides recover every frame, whatever else the server's object does
-/

set_option autoImplicit false

namespace Yalantinglibs.Cinatra

open ByteCodec SegmentedStream

/-! ### Frames -/

/-- A frame to be sent. -/
structure Frame where
  payload : Bytes
  op : Opcode
  eof : Bool
  needCompression : Bool
  payload_lt : payload.length < 2 ^ 63

/-- A frame that a client sends, with the object it has by then and the value of `rand()`. -/
structure ClientFrame extends Frame where
  ws : Websocket
  random : UInt32

/-- The object behind `encode_frame`, and the masked payload. -/
def ClientFrame.encoded (f : ClientFrame) : Websocket × Bytes :=
  encodeFrame f.ws f.random f.payload f.op f.eof f.needCompression

/-- What a client puts on the wire. -/
def ClientFrame.wire (f : ClientFrame) : Bytes := f.encoded.1.msgHeader ++ f.encoded.2

/-- What a side knows about a frame that it has read. -/
structure Received where
  fin : UInt8
  opcode : UInt8
  payloadLength : ℕ
  payload : Bytes
  /-- the bytes read before the payload -/
  headerLength : ℕ
  deriving DecidableEq, Repr

/-- What a side should know about a frame whose header has this length. -/
def Frame.received (f : Frame) (headerLength : ℕ) : Received :=
  { fin := if f.eof then 1 else 0
    opcode := ⟨f.op.value.setWidth 8⟩
    payloadLength := f.payload.length
    payload := f.payload
    headerLength := headerLength }

/-! ### The two sides -/

/-- Where a side waits for bytes. -/
inductive Wait
  /-- for `n` bytes of a header, behind those that are in the buffer -/
  | header (buf : Bytes) (n : ℕ)
  | payload (headerLength : ℕ)
  | failed
  deriving DecidableEq, Repr

/-- A server between two waits, with the segments it has still to read, what it has received, and
the frames it has sent with their bytes. -/
structure ServerSide where
  ws : Websocket
  wait : Wait
  input : List Bytes
  received : List Received
  sent : List (Frame × Bytes)

/-- `read_websocket` at the start. -/
def ServerSide.start (input : List Bytes) : ServerSide :=
  { ws := {}
    wait := .header [] WsHeadLen.shortHeader.bytes
    input := input
    received := []
    sent := [] }

/-- `read_websocket`, up to the next wait. -/
def ServerSide.read (s : ServerSide) : ServerSide :=
  match s.wait with
  | .header buf n =>
    match readExactly n s.input with
    | none => s
    | some (bs, input) =>
      match parseHeader s.ws (buf ++ bs) s.ws.lenBytes.bytes true with
      | (.complete, ws) =>
        { s with ws := ws.resetLenBytes, wait := .payload (buf ++ bs).length, input := input }
      | (.incomplete, ws) =>
        { s with ws := ws, wait := .header (buf ++ bs) ws.leftHeaderLen, input := input }
      | (.error, ws) => { s with ws := ws, wait := .failed, input := input }
  | .payload headerLength =>
    match readExactly s.ws.payloadLength s.input with
    | none => s
    | some (bs, input) =>
      { s with
        wait := .header [] WsHeadLen.shortHeader.bytes
        input := input
        received := s.received ++
          [{ fin := s.ws.msgFin
             opcode := s.ws.msgOpcode
             payloadLength := s.ws.payloadLength
             payload := (parsePayload s.ws bs).2
             headerLength := headerLength }] }
  | .failed => s

/-- `write_websocket`. No random value is asked for. -/
def ServerSide.write (s : ServerSide) (f : Frame) : ServerSide :=
  let ws := encodeWsHeader s.ws 0 f.payload.length f.op f.eof f.needCompression false
  { s with ws := ws, sent := s.sent ++ [(f, ws.msgHeader ++ f.payload)] }

/-- What a server does next. -/
inductive ServerEvent
  | read
  | write (f : Frame)

def ServerSide.step (s : ServerSide) : ServerEvent → ServerSide
  | .read => s.read
  | .write f => s.write f

/-- The frames that are written. -/
def writes : List ServerEvent → List Frame
  | [] => []
  | .read :: events => writes events
  | .write f :: events => f :: writes events

/-- How often the server reads. -/
def reads : List ServerEvent → ℕ
  | [] => 0
  | .read :: events => reads events + 1
  | .write _ :: events => reads events

/-- A client between two waits. -/
structure ClientSide where
  ws : Websocket
  wait : Wait
  input : List Bytes
  received : List Received

/-- `async_read_ws` at the start. -/
def ClientSide.start (input : List Bytes) : ClientSide :=
  { ws := {}
    wait := .header [] (Websocket.leftHeaderLen {})
    input := input
    received := [] }

/-- `async_read_ws`, up to the next wait. The payload is left as it is. -/
def ClientSide.read (c : ClientSide) : ClientSide :=
  match c.wait with
  | .header buf n =>
    match readExactly n c.input with
    | none => c
    | some (bs, input) =>
      match parseHeader c.ws (buf ++ bs) (buf ++ bs).length false with
      | (.complete, ws) => { c with ws := ws, wait := .payload (buf ++ bs).length, input := input }
      | (.incomplete, ws) =>
        { c with ws := ws, wait := .header (buf ++ bs) ws.leftHeaderLen, input := input }
      | (.error, ws) => { c with ws := ws, wait := .failed, input := input }
  | .payload headerLength =>
    match readExactly c.ws.payloadLength c.input with
    | none => c
    | some (bs, input) =>
      { ws := {}
        wait := .header [] (Websocket.leftHeaderLen {})
        input := input
        received := c.received ++
          [{ fin := c.ws.msgFin
             opcode := c.ws.msgOpcode
             payloadLength := c.ws.payloadLength
             payload := bs
             headerLength := headerLength }] }
  | .failed => c

/-! ### Reading in step with the writer -/

section Synced

variable {σ φ ρ : Type*}

/-- A reader that is in step with a stream of frames after `k` reads: some frames are received, and
`stands p` holds of the others where `p` waits of the next one are over. A frame has three at
most. -/
def Synced (stands : ℕ → List φ → σ → Prop) (received : σ → List ρ) (out : φ → ρ)
    (frames : List φ) (k : ℕ) (s : σ) : Prop :=
  ∃ p done rest, frames = done ++ rest ∧ stands p rest s ∧ p ≤ 2 ∧ received s = done.map out ∧
    (rest = [] ∨ k ≤ 3 * done.length + p)

variable {stands : ℕ → List φ → σ → Prop} {received : σ → List ρ} {out : φ → ρ} {frames : List φ}
  {k : ℕ} {s s' : σ}

/-- A read takes the frame to its next wait, or ends it. -/
theorem Synced.read (h : Synced stands received out frames k s)
    (hidle : ∀ p, stands p [] s → stands p [] s' ∧ received s' = received s)
    (hread : ∀ p f rest, stands p (f :: rest) s → p ≤ 2 →
      (∃ p', p < p' ∧ p' ≤ 2 ∧ stands p' (f :: rest) s' ∧ received s' = received s) ∨
        stands 0 rest s' ∧ received s' = received s ++ [out f]) :
    Synced stands received out frames (k + 1) s' := by
  obtain ⟨p, done, rest, hframes, hat, hp, hreceived, hk⟩ := h
  cases rest with
  | nil =>
    obtain ⟨hat', hreceived'⟩ := hidle p hat
    exact ⟨p, done, [], hframes, hat', hp, by rw [hreceived', hreceived], .inl rfl⟩
  | cons f rest =>
    have hk : k ≤ 3 * done.length + p := hk.resolve_left (List.cons_ne_nil f rest)
    obtain ⟨p', hpp', hp', hat', hreceived'⟩ | ⟨hat', hreceived'⟩ := hread p f rest hat hp
    · exact ⟨p', done, f :: rest, hframes, hat', hp', by rw [hreceived', hreceived],
        .inr (by omega)⟩
    · refine ⟨0, done ++ [f], rest, by simp [hframes], hat', Nat.zero_le 2, ?_, .inr ?_⟩
      · rw [hreceived', hreceived, List.map_append, List.map_cons, List.map_nil]
      · rw [List.length_append, List.length_singleton]
        omega

/-- Anything else leaves it where it is. -/
theorem Synced.keep (h : Synced stands received out frames k s)
    (hkeep : ∀ p rest, stands p rest s → stands p rest s') (hreceived : received s' = received s) :
    Synced stands received out frames k s' := by
  obtain ⟨p, done, rest, hframes, hat, hp, hdone, hk⟩ := h
  exact ⟨p, done, rest, hframes, hkeep p rest hat, hp, hreceived.trans hdone, hk⟩

/-- What is received are the first frames, and all of them after three reads for each. -/
theorem Synced.received_eq (h : Synced stands received out frames k s) :
    received s <+: frames.map out ∧ (3 * frames.length ≤ k → received s = frames.map out) := by
  obtain ⟨p, done, rest, rfl, hat, hp, hdone, hk⟩ := h
  rw [hdone, List.map_append]
  refine ⟨List.prefix_append _ _, fun hreads => ?_⟩
  obtain rfl | hk := hk
  · rw [List.map_nil, List.append_nil]
  · rw [List.length_append] at hreads
    have hrest : rest.length = 0 := by omega
    rw [List.length_eq_zero_iff.mp hrest, List.map_nil, List.append_nil]

end Synced

/-! ### What is on the wire -/

/-- The first two bytes of a header. -/
def Frame.hdr (f : Frame) (isClient : Bool) : FrameHeader :=
  { fin := f.eof
    rsv2 := false
    rsv1 := f.needCompression
    rsv3 := false
    opcode := f.op.value
    mask := isClient
    len := BitVec.ofNat 7 (lenField f.payload.length) }

/-- The mask key of a frame: that of the frame before where there is nothing to mask. -/
def ClientFrame.key (f : ClientFrame) : UInt32 :=
  if 0 < f.payload.length then f.random else f.ws.maskKey

/-- The header a client writes. -/
theorem ClientFrame.encoded_msgHeader (f : ClientFrame) :
    f.encoded.1.msgHeader = (f.hdr true).toBytes ++
      (extendedLen f.payload.length ++ toLE 4 f.key.toNat) := by
  rw [← List.append_assoc]
  rfl

theorem ClientFrame.encoded_payload (f : ClientFrame) :
    f.encoded.2 = maskPayload f.key f.payload := rfl

theorem extendedLen_length (n : ℕ) : 2 + (extendedLen n).length = (headLen n).clientBytes := by
  obtain ⟨-, hclass, -, hext⟩ | ⟨-, -, hclass, -, hext⟩ | ⟨-, hclass, -, hext⟩ := headLen_cases n
  · rw [hclass, hext]
    rfl
  · rw [hclass, hext, toBE_length]
    rfl
  · rw [hclass, hext, toBE_length]
    rfl

theorem WsHeadLen.bytes_eq (len : WsHeadLen) : len.bytes = len.clientBytes + 4 := by
  cases len <;> rfl

theorem ClientFrame.header_length (f : ClientFrame) :
    f.encoded.1.msgHeader.length = (headLen f.payload.length).bytes := by
  rw [f.encoded_msgHeader, List.length_append, List.length_append, toLE_length,
    FrameHeader.toBytes_length, WsHeadLen.bytes_eq, ← extendedLen_length]
  omega

/-! ### The server -/

/-- The object has the header of a frame. -/
structure HasHeader (f : Frame) (ws : Websocket) : Prop where
  fin : ws.msgFin = if f.eof then 1 else 0
  opcode : ws.msgOpcode = ⟨f.op.value.setWidth 8⟩
  payloadLength : ws.payloadLength = f.payload.length

/-- What follows the header of a frame. -/
def ClientFrame.behind (f : ClientFrame) (rest : List ClientFrame) : Bytes :=
  f.encoded.2 ++ rest.flatMap ClientFrame.wire

/-- Where a server stands in the stream of frames. -/
def ServerSide.Stands : ℕ → List ClientFrame → ServerSide → Prop
  | 0, rest, s =>
    s.ws.lenBytes = .shortHeader ∧ s.wait = .header [] WsHeadLen.shortHeader.bytes ∧
      s.input.flatten = rest.flatMap ClientFrame.wire
  | 1, f :: rest, s =>
    headLen f.payload.length ≠ .shortHeader ∧ s.ws.lenBytes = headLen f.payload.length ∧
      s.wait = .header (f.encoded.1.msgHeader.take 6) ((headLen f.payload.length).bytes - 6) ∧
      s.input.flatten = f.encoded.1.msgHeader.drop 6 ++ f.behind rest
  | 2, f :: rest, s =>
    s.ws.lenBytes = .shortHeader ∧ s.wait = .payload (headLen f.payload.length).bytes ∧
      HasHeader f.toFrame s.ws ∧ s.ws.maskKey = f.key ∧ s.input.flatten = f.behind rest
  | _, _, _ => False

theorem sizeSub_of_le {a b : ℕ} (h : b ≤ a) (ha : a < 2 ^ 64) : sizeSub a b = a - b := by
  unfold sizeSub
  omega

theorem WsHeadLen.bytes_le (len : WsHeadLen) : 6 ≤ len.bytes ∧ len.bytes < 2 ^ 64 := by
  cases len <;> decide

theorem WsHeadLen.lt_bytes {n : ℕ} (h : headLen n ≠ .shortHeader) : 6 < (headLen n).bytes := by
  obtain ⟨-, hclass, -⟩ | ⟨-, -, hclass, -⟩ | ⟨-, hclass, -⟩ := headLen_cases n
  · exact absurd hclass h
  · rw [hclass]
    decide
  · rw [hclass]
    decide

/-- All bytes of a header are parsed, whatever is behind them. -/
theorem parseHeader_client (ws : Websocket) (f : ClientFrame) (more : Bytes) :
    ∃ ws', parseHeader ws (f.encoded.1.msgHeader ++ more) (headLen f.payload.length).bytes true =
        (.complete, ws') ∧ HasHeader f.toFrame ws' ∧ ws'.maskKey = f.key := by
  have hzero : sizeSub ((headLen f.payload.length).awaited true)
      (headLen f.payload.length).bytes = 0 := by
    rw [WsHeadLen.awaited, if_pos rfl, sizeSub_of_le (le_refl _) (WsHeadLen.bytes_le _).2,
      Nat.sub_self]
  have hlt : f.payload.length < 2 ^ 64 := lt_trans f.payload_lt (by decide)
  have hparse := parseHeader_complete ws (rfl : (f.hdr true).len = _) hlt
    (toLE 4 f.key.toNat ++ more) hzero
  have hkey := copyMask_toLE ({ ws.started (f.hdr true) f.payload.length
    (headLen f.payload.length).bytes true with payloadLength := f.payload.length }) f.key more
  have hbuf : f.encoded.1.msgHeader ++ more = (f.hdr true).toBytes ++
      (extendedLen f.payload.length ++ (toLE 4 f.key.toNat ++ more)) := by
    rw [f.encoded_msgHeader]
    simp only [List.append_assoc]
  rw [← hbuf] at hparse
  exact ⟨_, hparse.trans (congrArg _ hkey), ⟨rfl, rfl, rfl⟩, rfl⟩

/-- The first bytes of a longer header are parsed. -/
theorem parseHeader_client_take (ws : Websocket) (f : ClientFrame) (more : Bytes)
    (h : headLen f.payload.length ≠ .shortHeader) :
    ∃ ws', parseHeader ws ((f.hdr true).toBytes ++ more) 6 true = (.incomplete, ws') ∧
      ws'.lenBytes = headLen f.payload.length ∧
      ws'.leftHeaderLen = (headLen f.payload.length).bytes - 6 := by
  have hleft : sizeSub ((headLen f.payload.length).awaited true) 6 =
      (headLen f.payload.length).bytes - 6 := by
    rw [WsHeadLen.awaited, if_pos rfl,
      sizeSub_of_le (WsHeadLen.bytes_le _).1 (WsHeadLen.bytes_le _).2]
  have hpos : 0 < sizeSub ((headLen f.payload.length).awaited true) 6 := by
    have := WsHeadLen.lt_bytes h
    omega
  exact ⟨_, parseHeader_incomplete ws rfl more hpos, rfl, hleft⟩

/-- The first bytes of a stream that starts with a header. -/
theorem ClientFrame.take_msgHeader (f : ClientFrame) {n : ℕ} (hn : 2 ≤ n) (more : Bytes) :
    ∃ bs, (f.encoded.1.msgHeader ++ more).take n = (f.hdr true).toBytes ++ bs := by
  refine ⟨(extendedLen f.payload.length ++ toLE 4 f.key.toNat ++ more).take (n - 2), ?_⟩
  rw [f.encoded_msgHeader, List.append_assoc, List.take_append, FrameHeader.toBytes_length,
    List.take_of_length_le hn]

/-- The first read of a frame. -/
theorem ServerSide.read_first {s : ServerSide} {f : ClientFrame} {rest : List ClientFrame}
    (h : s.Stands 0 (f :: rest)) :
    (s.read.Stands 1 (f :: rest) ∨ s.read.Stands 2 (f :: rest)) ∧
      s.read.received = s.received := by
  obtain ⟨hlen, hwait, hinput⟩ := h
  have hsplit : s.input.flatten = f.encoded.1.msgHeader.take 6 ++
      (f.encoded.1.msgHeader.drop 6 ++ f.behind rest) := by
    rw [hinput, List.flatMap_cons, ClientFrame.wire, ClientFrame.behind, ← List.append_assoc,
      List.take_append_drop, List.append_assoc]
  have hsix : (f.encoded.1.msgHeader.take 6).length = 6 := by
    rw [List.length_take, f.header_length]
    have := (WsHeadLen.bytes_le (headLen f.payload.length)).1
    omega
  obtain ⟨input, hread, hrest⟩ := readExactly_append hsplit hsix
  by_cases hshort : headLen f.payload.length = .shortHeader
  · -- six bytes are the whole header
    have hall : f.encoded.1.msgHeader.take 6 = f.encoded.1.msgHeader := by
      apply List.take_of_length_le
      rw [f.header_length, hshort]
      rfl
    have hnone : f.encoded.1.msgHeader.drop 6 = [] := by
      apply List.drop_of_length_le
      rw [f.header_length, hshort]
      rfl
    obtain ⟨ws', hparse, hheader, hkey⟩ := parseHeader_client s.ws f []
    rw [hshort, List.append_nil] at hparse
    have hstep : s.read = { s with
        ws := ws'.resetLenBytes
        wait := .payload f.encoded.1.msgHeader.length
        input := input } := by
      rw [ServerSide.read]
      simp only [hwait, WsHeadLen.bytes, hread, List.nil_append, hlen, hall]
      simp only [WsHeadLen.bytes] at hparse
      rw [hparse]
    rw [hstep]
    refine ⟨.inr ⟨rfl, ?_, ⟨hheader.fin, hheader.opcode, hheader.payloadLength⟩, hkey, ?_⟩, rfl⟩
    · rw [f.header_length]
    · rw [hrest, hnone, List.nil_append]
  · obtain ⟨bs, hbs⟩ := f.take_msgHeader (n := 6) (by decide) []
    rw [List.append_nil] at hbs
    obtain ⟨ws', hparse, hclass, hleft⟩ := parseHeader_client_take s.ws f bs hshort
    rw [← hbs] at hparse
    have hstep : s.read = { s with
        ws := ws'
        wait := .header (f.encoded.1.msgHeader.take 6) ((headLen f.payload.length).bytes - 6)
        input := input } := by
      rw [ServerSide.read]
      simp only [hwait, WsHeadLen.bytes, hread, List.nil_append, hlen, hparse, hleft]
    rw [hstep]
    exact ⟨.inl ⟨hshort, hclass, rfl, hrest⟩, rfl⟩

/-- The second read of a frame with a longer header. -/
theorem ServerSide.read_second {s : ServerSide} {f : ClientFrame} {rest : List ClientFrame}
    (h : s.Stands 1 (f :: rest)) :
    s.read.Stands 2 (f :: rest) ∧ s.read.received = s.received := by
  obtain ⟨hlong, hlen, hwait, hinput⟩ := h
  have hmissing : (f.encoded.1.msgHeader.drop 6).length =
      (headLen f.payload.length).bytes - 6 := by
    rw [List.length_drop, f.header_length]
  obtain ⟨input, hread, hrest⟩ := readExactly_append hinput hmissing
  obtain ⟨ws', hparse, hheader, hkey⟩ := parseHeader_client s.ws f []
  rw [List.append_nil] at hparse
  have hstep : s.read = { s with
      ws := ws'.resetLenBytes
      wait := .payload f.encoded.1.msgHeader.length
      input := input } := by
    rw [ServerSide.read]
    simp only [hwait, hread, List.take_append_drop, hlen, hparse]
  rw [hstep]
  refine ⟨⟨rfl, ?_, ⟨hheader.fin, hheader.opcode, hheader.payloadLength⟩, hkey, hrest⟩, rfl⟩
  rw [f.header_length]

/-- The read of the payload. -/
theorem ServerSide.read_payload {s : ServerSide} {f : ClientFrame} {rest : List ClientFrame}
    (h : s.Stands 2 (f :: rest)) :
    s.read.Stands 0 rest ∧
      s.read.received = s.received ++ [f.received (headLen f.payload.length).bytes] := by
  obtain ⟨hlen, hwait, hheader, hkey, hinput⟩ := h
  have hbody : f.encoded.2.length = s.ws.payloadLength := by
    rw [f.encoded_payload, maskPayload_length, hheader.payloadLength]
  obtain ⟨input, hread, hrest⟩ := readExactly_append hinput hbody
  have hpayload : (parsePayload s.ws f.encoded.2).2 = f.payload := by
    rw [parsePayload_eq _ hbody, hkey, f.encoded_payload, maskPayload_maskPayload]
  have hstep : s.read = { s with
      wait := .header [] WsHeadLen.shortHeader.bytes
      input := input
      received := s.received ++ [f.received (headLen f.payload.length).bytes] } := by
    rw [ServerSide.read]
    simp only [hwait, hread, hpayload, Frame.received]
    rw [hheader.fin, hheader.opcode, hheader.payloadLength]
  rw [hstep]
  exact ⟨⟨hlen, rfl, hrest⟩, rfl⟩

/-- Without another frame the server waits. -/
theorem ServerSide.read_idle {s : ServerSide} {p : ℕ} (h : s.Stands p []) : s.read = s := by
  rcases p with _ | _ | _ | p
  · obtain ⟨_, hwait, hinput⟩ := h
    have hnone : readExactly WsHeadLen.shortHeader.bytes s.input = none := by
      apply readExactly_eq_none
      rw [hinput]
      decide
    rw [ServerSide.read]
    simp only [hwait, hnone]
  all_goals exact h.elim

/-- The server is in step with the client after `k` reads. -/
def ServerSide.InStep (frames : List ClientFrame) (k : ℕ) (s : ServerSide) : Prop :=
  Synced ServerSide.Stands ServerSide.received
    (fun f => f.received (headLen f.payload.length).bytes) frames k s

/-- A read keeps the server in step. -/
theorem ServerSide.InStep.read {s : ServerSide} {frames : List ClientFrame} {k : ℕ}
    (h : ServerSide.InStep frames k s) :
    ServerSide.InStep frames (k + 1) s.read := by
  apply Synced.read h
  · intro p hstands
    rw [ServerSide.read_idle hstands]
    exact ⟨hstands, rfl⟩
  · intro p f rest hstands hp
    match p, hstands with
    | 0, hstands =>
      obtain ⟨hmiddle | hpayload, hreceived⟩ := ServerSide.read_first hstands
      · exact .inl ⟨1, by decide, by decide, hmiddle, hreceived⟩
      · exact .inl ⟨2, by decide, by decide, hpayload, hreceived⟩
    | 1, hstands =>
      obtain ⟨hpayload, hreceived⟩ := ServerSide.read_second hstands
      exact .inl ⟨2, by decide, by decide, hpayload, hreceived⟩
    | 2, hstands => exact .inr (ServerSide.read_payload hstands)

/-- A write changes nothing that the reads depend on. -/
theorem ServerSide.stands_write {s : ServerSide} {p : ℕ} {rest : List ClientFrame} (f : Frame)
    (h : s.Stands p rest) : (s.write f).Stands p rest := by
  match p, rest, h with
  | 0, _, h => exact h
  | 1, _ :: _, h => exact h
  | 2, _ :: _, ⟨hlen, hwait, hheader, hkey, hinput⟩ =>
    exact ⟨hlen, hwait, ⟨hheader.fin, hheader.opcode, hheader.payloadLength⟩, hkey, hinput⟩

theorem ServerSide.InStep.write {s : ServerSide} {frames : List ClientFrame} {k : ℕ}
    (h : ServerSide.InStep frames k s) (f : Frame) : ServerSide.InStep frames k (s.write f) :=
  Synced.keep h (fun _ _ => ServerSide.stands_write f) rfl

/-- What a server puts on the wire for a frame. -/
def Frame.wire (f : Frame) : Bytes :=
  (f.hdr false).toBytes ++ extendedLen f.payload.length ++ f.payload

/-- A run of the server keeps it in step, and sends what is written. -/
theorem ServerSide.foldl_step {frames : List ClientFrame} (events : List ServerEvent)
    {s : ServerSide} {k : ℕ}
    (h : ServerSide.InStep frames k s) :
    ServerSide.InStep frames (k + reads events) (events.foldl ServerSide.step s) ∧
      (events.foldl ServerSide.step s).sent =
        s.sent ++ (writes events).map fun f => (f, f.wire) := by
  induction events generalizing s k with
  | nil => exact ⟨h, by rw [writes, List.map_nil, List.append_nil, List.foldl_nil]⟩
  | cons event events ih =>
    cases event with
    | read =>
      obtain ⟨hsynced, hsent⟩ := ih h.read
      have hkeep : s.read.sent = s.sent := by
        unfold ServerSide.read
        split
        · split
          · rfl
          · split <;> rfl
        · split <;> rfl
        · rfl
      rw [hkeep] at hsent
      rw [Nat.add_right_comm] at hsynced
      exact ⟨hsynced, hsent⟩
    | write f =>
      obtain ⟨hsynced, hsent⟩ := ih (h.write f)
      refine ⟨hsynced, hsent.trans ?_⟩
      rw [ServerSide.write, writes, List.map_cons, List.append_assoc]
      rfl

/-! ### The client -/

/-- What follows the header of a frame. -/
def Frame.behind (f : Frame) (rest : List Frame) : Bytes := f.payload ++ rest.flatMap Frame.wire

/-- Where a client stands in the stream of frames. -/
def ClientSide.Stands : ℕ → List Frame → ClientSide → Prop
  | 0, rest, c => c.wait = .header [] 2 ∧ c.input.flatten = rest.flatMap Frame.wire
  | 1, f :: rest, c =>
    headLen f.payload.length ≠ .shortHeader ∧
      c.wait = .header (f.hdr false).toBytes ((headLen f.payload.length).clientBytes - 2) ∧
      c.input.flatten = extendedLen f.payload.length ++ f.behind rest
  | 2, f :: rest, c =>
    c.wait = .payload (headLen f.payload.length).clientBytes ∧ HasHeader f c.ws ∧
      c.input.flatten = f.behind rest
  | _, _, _ => False

theorem WsHeadLen.clientBytes_le (len : WsHeadLen) :
    2 ≤ len.clientBytes ∧ len.clientBytes < 2 ^ 64 := by
  cases len <;> decide

/-- All bytes of a header are parsed. -/
theorem parseHeader_server (ws : Websocket) (f : Frame) :
    ∃ ws', parseHeader ws ((f.hdr false).toBytes ++ extendedLen f.payload.length)
        (headLen f.payload.length).clientBytes false = (.complete, ws') ∧ HasHeader f ws' := by
  have hzero : sizeSub ((headLen f.payload.length).awaited false)
      (headLen f.payload.length).clientBytes = 0 := by
    rw [WsHeadLen.awaited, if_neg Bool.false_ne_true,
      sizeSub_of_le (le_refl _) (WsHeadLen.clientBytes_le _).2, Nat.sub_self]
  have hlt : f.payload.length < 2 ^ 64 := lt_trans f.payload_lt (by decide)
  have hparse := parseHeader_complete ws (rfl : (f.hdr false).len = _) hlt [] hzero
  rw [List.append_nil] at hparse
  exact ⟨_, hparse, rfl, rfl, rfl⟩

/-- The first two bytes of a longer header are parsed. -/
theorem parseHeader_server_take (ws : Websocket) (f : Frame)
    (h : headLen f.payload.length ≠ .shortHeader) :
    ∃ ws', parseHeader ws (f.hdr false).toBytes 2 false = (.incomplete, ws') ∧
      ws'.leftHeaderLen = (headLen f.payload.length).clientBytes - 2 := by
  have hleft : sizeSub ((headLen f.payload.length).awaited false) 2 =
      (headLen f.payload.length).clientBytes - 2 := by
    rw [WsHeadLen.awaited, if_neg Bool.false_ne_true,
      sizeSub_of_le (WsHeadLen.clientBytes_le _).1 (WsHeadLen.clientBytes_le _).2]
  have hpos : 0 < sizeSub ((headLen f.payload.length).awaited false) 2 := by
    have hlong := WsHeadLen.lt_bytes h
    rw [WsHeadLen.bytes_eq] at hlong
    omega
  have hparse := parseHeader_incomplete ws (rfl : (f.hdr false).len = _) [] hpos
  rw [List.append_nil] at hparse
  exact ⟨_, hparse, hleft⟩

/-- The first read of a frame. -/
theorem ClientSide.read_first {c : ClientSide} {f : Frame} {rest : List Frame}
    (h : c.Stands 0 (f :: rest)) :
    (c.read.Stands 1 (f :: rest) ∨ c.read.Stands 2 (f :: rest)) ∧
      c.read.received = c.received := by
  obtain ⟨hwait, hinput⟩ := h
  have hsplit : c.input.flatten = (f.hdr false).toBytes ++
      (extendedLen f.payload.length ++ f.behind rest) := by
    rw [hinput, List.flatMap_cons, Frame.wire, Frame.behind]
    simp only [List.append_assoc]
  obtain ⟨input, hread, hrest⟩ := readExactly_append hsplit (f.hdr false).toBytes_length
  by_cases hshort : headLen f.payload.length = .shortHeader
  · -- two bytes are the whole header
    have hnone : extendedLen f.payload.length = [] := by
      have hlength := extendedLen_length f.payload.length
      rw [hshort, WsHeadLen.clientBytes] at hlength
      apply List.length_eq_zero_iff.mp
      omega
    obtain ⟨ws', hparse, hheader⟩ := parseHeader_server c.ws f
    rw [hnone, List.append_nil, hshort] at hparse
    have hstep : c.read = { c with ws := ws', wait := .payload 2, input := input } := by
      rw [ClientSide.read]
      simp only [WsHeadLen.clientBytes] at hparse
      simp only [hwait, hread, List.nil_append, FrameHeader.toBytes_length, hparse]
    rw [hstep]
    refine ⟨.inr ⟨?_, hheader, ?_⟩, rfl⟩
    · rw [hshort]
      rfl
    · rw [hrest, hnone, List.nil_append]
  · obtain ⟨ws', hparse, hleft⟩ := parseHeader_server_take c.ws f hshort
    have hstep : c.read = { c with
        ws := ws'
        wait := .header (f.hdr false).toBytes ((headLen f.payload.length).clientBytes - 2)
        input := input } := by
      rw [ClientSide.read]
      simp only [hwait, hread, List.nil_append, FrameHeader.toBytes_length, hparse, hleft]
    rw [hstep]
    exact ⟨.inl ⟨hshort, rfl, hrest⟩, rfl⟩

/-- The second read of a frame with a longer header. -/
theorem ClientSide.read_second {c : ClientSide} {f : Frame} {rest : List Frame}
    (h : c.Stands 1 (f :: rest)) :
    c.read.Stands 2 (f :: rest) ∧ c.read.received = c.received := by
  obtain ⟨-, hwait, hinput⟩ := h
  have hlength := extendedLen_length f.payload.length
  have hmissing : (extendedLen f.payload.length).length =
      (headLen f.payload.length).clientBytes - 2 := by
    omega
  obtain ⟨input, hread, hrest⟩ := readExactly_append hinput hmissing
  obtain ⟨ws', hparse, hheader⟩ := parseHeader_server c.ws f
  have hsize : ((f.hdr false).toBytes ++ extendedLen f.payload.length).length =
      (headLen f.payload.length).clientBytes := by
    rw [List.length_append, FrameHeader.toBytes_length, hlength]
  have hstep : c.read = { c with
      ws := ws'
      wait := .payload (headLen f.payload.length).clientBytes
      input := input } := by
    rw [ClientSide.read]
    simp only [hwait, hread, hsize, hparse]
  rw [hstep]
  exact ⟨⟨rfl, hheader, hrest⟩, rfl⟩

/-- The read of the payload. -/
theorem ClientSide.read_payload {c : ClientSide} {f : Frame} {rest : List Frame}
    (h : c.Stands 2 (f :: rest)) :
    c.read.Stands 0 rest ∧
      c.read.received = c.received ++ [f.received (headLen f.payload.length).clientBytes] := by
  obtain ⟨hwait, hheader, hinput⟩ := h
  obtain ⟨input, hread, hrest⟩ := readExactly_append hinput hheader.payloadLength.symm
  have hstep : c.read =
      { ws := {}
        wait := .header [] 2
        input := input
        received := c.received ++ [f.received (headLen f.payload.length).clientBytes] } := by
    rw [ClientSide.read]
    simp only [hwait, hread, Frame.received]
    rw [hheader.fin, hheader.opcode, hheader.payloadLength]
  rw [hstep]
  exact ⟨⟨rfl, hrest⟩, rfl⟩

/-- Without another frame the client waits. -/
theorem ClientSide.read_idle {c : ClientSide} {p : ℕ} (h : c.Stands p []) : c.read = c := by
  rcases p with _ | _ | _ | p
  · obtain ⟨hwait, hinput⟩ := h
    have hnone : readExactly 2 c.input = none := by
      apply readExactly_eq_none
      rw [hinput]
      decide
    rw [ClientSide.read]
    simp only [hwait, hnone]
  all_goals exact h.elim

/-- The client is in step with the server after `k` reads. -/
def ClientSide.InStep (frames : List Frame) (k : ℕ) (c : ClientSide) : Prop :=
  Synced ClientSide.Stands ClientSide.received
    (fun f => f.received (headLen f.payload.length).clientBytes) frames k c

/-- A read keeps the client in step. -/
theorem ClientSide.InStep.read {c : ClientSide} {frames : List Frame} {k : ℕ}
    (h : ClientSide.InStep frames k c) : ClientSide.InStep frames (k + 1) c.read := by
  apply Synced.read h
  · intro p hstands
    rw [ClientSide.read_idle hstands]
    exact ⟨hstands, rfl⟩
  · intro p f rest hstands hp
    match p, hstands with
    | 0, hstands =>
      obtain ⟨hmiddle | hpayload, hreceived⟩ := ClientSide.read_first hstands
      · exact .inl ⟨1, by decide, by decide, hmiddle, hreceived⟩
      · exact .inl ⟨2, by decide, by decide, hpayload, hreceived⟩
    | 1, hstands =>
      obtain ⟨hpayload, hreceived⟩ := ClientSide.read_second hstands
      exact .inl ⟨2, by decide, by decide, hpayload, hreceived⟩
    | 2, hstands => exact .inr (ClientSide.read_payload hstands)

/-- A run of the client keeps it in step. -/
theorem ClientSide.iterate_read {frames : List Frame} (n : ℕ) {c : ClientSide} {k : ℕ}
    (h : ClientSide.InStep frames k c) :
    ClientSide.InStep frames (k + n) (ClientSide.read^[n] c) := by
  induction n generalizing c k with
  | zero => exact h
  | succ n ih =>
    rw [Function.iterate_succ_apply, Nat.add_comm n 1, ← Nat.add_assoc]
    exact ih h.read

/-! ### Both directions -/

/-- Frames that clients write are recovered by the server, whatever frames its object writes in
between, and those are recovered by the client. -/
theorem frames_recovered (frames : List ClientFrame) (segs : List Bytes)
    (hsegs : segs.flatten = frames.flatMap ClientFrame.wire) (events : List ServerEvent) :
    let s := events.foldl ServerSide.step (ServerSide.start segs)
    let fromClient := frames.map fun f => f.received f.encoded.1.msgHeader.length
    let fromServer := (writes events).map fun f =>
      f.received ((f.hdr false).toBytes ++ extendedLen f.payload.length).length
    s.received <+: fromClient ∧
      (3 * frames.length ≤ reads events → s.received = fromClient) ∧
      s.sent.map Prod.fst = writes events ∧
      ∀ segs' : List Bytes, segs'.flatten = s.sent.flatMap Prod.snd → ∀ n,
        let c := ClientSide.read^[n] (ClientSide.start segs')
        c.received <+: fromServer ∧
          (3 * (writes events).length ≤ n → c.received = fromServer) := by
  intro s fromClient fromServer
  have hstart : ServerSide.InStep frames 0 (ServerSide.start segs) :=
    ⟨0, [], frames, rfl, ⟨rfl, rfl, hsegs⟩, by decide, rfl, .inr (by decide)⟩
  obtain ⟨hsynced, hsent⟩ := ServerSide.foldl_step events hstart
  rw [Nat.zero_add] at hsynced
  have hserver := Synced.received_eq hsynced
  simp only [← ClientFrame.header_length] at hserver
  refine ⟨hserver.1, hserver.2, ?_, fun segs' hsegs' n => ?_⟩
  · rw [hsent]
    simp [ServerSide.start, Function.comp_def]
  · have hwire : segs'.flatten = (writes events).flatMap Frame.wire := by
      rw [hsegs', hsent]
      simp [ServerSide.start, List.flatMap_map]
    have hclient : ClientSide.InStep (writes events) 0 (ClientSide.start segs') :=
      ⟨0, [], writes events, rfl, ⟨rfl, hwire⟩, by decide, rfl, .inr (by decide)⟩
    have hreceived := Synced.received_eq (ClientSide.iterate_read n hclient)
    rw [Nat.zero_add] at hreceived
    simp only [← extendedLen_length] at hreceived
    simp only [fromServer, List.length_append, FrameHeader.toBytes_length]
    exact hreceived

/-- A masked text of two bytes, and an empty ping. -/
def sampleFrame : ClientFrame :=
  { payload := [72, 105]
    op := .text
    eof := true
    needCompression := false
    payload_lt := by decide
    ws := {}
    random := 0x12345678 }

def samplePing : Frame :=
  { payload := []
    op := .ping
    eof := true
    needCompression := false
    payload_lt := by decide }

theorem frames_recovered_sample :
    let s := [.read, .write samplePing, .read, .read].foldl ServerSide.step
      (ServerSide.start [sampleFrame.wire.take 3, sampleFrame.wire.drop 3])
    s.received = [sampleFrame.received sampleFrame.encoded.1.msgHeader.length] ∧
      s.sent.map Prod.fst = [samplePing] := by
  have h := frames_recovered [sampleFrame] [sampleFrame.wire.take 3, sampleFrame.wire.drop 3]
    (by simp) [.read, .write samplePing, .read, .read]
  exact ⟨h.2.1 (le_refl 3), h.2.2.1⟩

end Yalantinglibs.Cinatra
