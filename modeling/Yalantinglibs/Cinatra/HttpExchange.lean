import Yalantinglibs.Cinatra.CoroHttpConnection

/-!
# Requests that arrive at a connection

A request is a head that the parser accepts, up to the first empty line, and a body. This file
follows a round of the loop over it: what is read of the segments, and what is left of them.

## Main definitions

* `RequestText` — a request as it is sent
* `RequestText.Framed` — the server takes the body of the request for its body
* `CoroHttpConnection.afterHead` — a round behind the head

## Main results

* `round_of_request` — a round reads the head wherever the segments are cut
* `readBody_of_framed` — and then the body
-/

set_option autoImplicit false

namespace Yalantinglibs.Cinatra

open SegmentedStream

/-- A request as it is sent, with what the parser makes of its head. -/
structure RequestText where
  head : Bytes
  body : Bytes
  parsed : RequestHead
  flags : ConnectionFlags
  head_end : endOf twoCrcf head = some head.length
  parses : phrParseRequest maxHttpHeaderFieldSize {} head = .ok ((parsed, flags), [])

namespace RequestText

variable (r : RequestText)

def text : Bytes := r.head ++ r.body

/-- The parser behind the head. -/
def parser (before : HttpParser) : HttpParser :=
  before.withRequest r.parsed (before.flags.or r.flags) r.head.length

/-- The body is left to the handler. -/
def streams : Bool := (({} : CoroHttpRequest).getContentType (r.parser {})).streams

/-- The body has the length that the server looks for: none where it is left to the handler. -/
def Framed : Prop :=
  if r.streams then r.body = [] else (r.body.length : ℤ) = requestBodyLen r.parsed

instance : Decidable r.Framed :=
  inferInstanceAs (Decidable (if r.streams then _ else _))

/-- The length of the body is not one that the server accepts. -/
def Refused (server : HttpServer) : Prop :=
  server.maxHttpBodyLen < requestBodyLen r.parsed ∨ requestBodyLen r.parsed < 0

instance (server : HttpServer) : Decidable (r.Refused server) :=
  inferInstanceAs (Decidable (_ ∨ _))

variable {r}

theorem head_ne_nil : r.head ≠ [] := by
  intro hnil
  have hend := r.head_end
  rw [hnil] at hend
  cases hend

@[simp] theorem parser_bodyLen (before : HttpParser) :
    (r.parser before).bodyLen = requestBodyLen r.parsed := rfl

theorem parseRequest_head (before : HttpParser) :
    before.parseRequest r.head = (r.parser before, (r.head.length : ℤ)) := by
  rw [HttpParser.parseRequest_of_ok r.parses]
  simp only [List.length_nil, Nat.cast_zero, sub_zero, parser]

theorem streams_eq (request : CoroHttpRequest) (before : HttpParser) :
    (request.getContentType (r.parser before)).streams = r.streams :=
  CoroHttpRequest.streams_congr rfl

/-- The body is read wherever the segments are cut. -/
theorem readBody_of_framed (h : r.Framed) {left : Bytes} {input : List Bytes}
    (hin : left ++ input.flatten = r.body) :
    ∃ input', readBody r.streams (requestBodyLen r.parsed).toNat left input =
        some (r.body, [], input') ∧ input'.flatten = [] := by
  rw [readBody]
  by_cases hbody : r.body = []
  · obtain ⟨rfl, hinput⟩ := List.append_eq_nil_iff.mp (hin.trans hbody)
    have hnone : r.streams ∨ (requestBodyLen r.parsed).toNat = 0 := by
      rw [Framed] at h
      split_ifs at h with hstreams
      · exact .inl hstreams
      · right
        rw [← h, hbody]
        rfl
    rw [if_pos hnone, hbody]
    exact ⟨input, rfl, hinput⟩
  · have hstreams : ¬ r.streams := by
      intro hstreams
      rw [Framed, if_pos hstreams] at h
      exact hbody h
    rw [Framed, if_neg hstreams] at h
    have hpos := List.length_pos_iff.mpr hbody
    have hsome : ¬ (r.streams ∨ r.body.length = 0) := by
      rintro (hyes | hzero)
      · exact hstreams hyes
      · omega
    rw [← h, Int.toNat_natCast, if_neg hsome]
    have hlen := congrArg List.length hin
    rw [List.length_append] at hlen
    by_cases hle : r.body.length ≤ left.length
    · -- all of the body is in the buffer
      have hinput : input.flatten = [] := List.length_eq_zero_iff.mp (by omega)
      rw [hinput, List.append_nil] at hin
      rw [if_pos hle, hin, List.take_length]
      exact ⟨input, rfl, hinput⟩
    · obtain ⟨input', hread, hrest⟩ := readExactly_append
        (show input.flatten = input.flatten ++ [] by rw [List.append_nil])
        (show input.flatten.length = r.body.length - left.length by omega)
      rw [if_neg hle, hread, Option.map_some]
      dsimp only
      rw [hin]
      exact ⟨input', rfl, hrest⟩

end RequestText

namespace CoroHttpConnection

variable (server : HttpServer) (c : CoroHttpConnection) (r : RequestText)

/-- A round behind the head of a request, with what the buffer has behind it. -/
def afterHead (left : Bytes) (input : List Bytes) : Option CoroHttpConnection :=
  let c := { c with parser := r.parser c.parser, input := input }
  if r.Refused server then
    some ({ c with headBuf := r.head ++ left }.refuse server (ascii "invalid http content length"))
  else
    (readBody r.streams (requestBodyLen r.parsed).toNat left input).map fun (body, left, input) =>
      { c with headBuf := left, input := input }.handle server body

variable {c r} {rest : Bytes}

/-- A round reads the head wherever the segments are cut. -/
theorem round_of_request (hopen : c.closed = false)
    (hin : c.headBuf ++ c.input.flatten = r.head ++ rest) :
    ∃ left input, left ++ input.flatten = rest ∧
      c.round server = c.afterHead server r left input := by
  have hend : endOf twoCrcf (c.headBuf ++ c.input.flatten) = some r.head.length := by
    rw [hin]
    exact endOf_append r.head_end rest
  obtain ⟨buf, input, hread, hall, hle⟩ := readUntil_of_endOf hend
  rw [hin] at hall
  -- the buffer starts with the head, and goes on with what is left
  have hbuf : buf = r.head ++ buf.drop r.head.length := by
    have htake := congrArg (List.take r.head.length) hall
    rw [List.take_append_of_le_length hle, List.take_left] at htake
    rw [← htake, List.length_take, Nat.min_eq_left hle, List.take_append_drop]
  have hleft : buf.drop r.head.length ++ input.flatten = rest := by
    have hdrop := congrArg (List.drop r.head.length) hall
    rwa [List.drop_append_of_le_length hle, List.drop_left] at hdrop
  refine ⟨buf.drop r.head.length, input, hleft, ?_⟩
  have htake : buf.take r.head.length = r.head := by
    rw [hbuf, List.take_left]
  have hpos : ¬ (r.head.length : ℤ) ≤ 0 := by
    have := List.length_pos_iff.mpr r.head_ne_nil
    omega
  simp only [round, hopen, Bool.false_eq_true, if_false, hread, htake, r.parseRequest_head, hpos,
    r.streams_eq, afterHead, RequestText.Refused, RequestText.parser_bodyLen, ← hbuf]
  split_ifs with hrefused
  · rfl
  · cases readBody r.streams (requestBodyLen r.parsed).toNat (buf.drop r.head.length) input <;> rfl

/-- A connection that waits does nothing. -/
theorem rounds_of_none {n : ℕ} (h : c.round server = none) : rounds server n c = c := by
  cases n with
  | zero => rfl
  | succ n => rw [rounds, h]

theorem round_of_closed (h : c.closed = true) : c.round server = none := by
  rw [round, if_pos h]

/-- Without an empty line there is nothing to do. -/
theorem round_eq_none (h : endOf twoCrcf (c.headBuf ++ c.input.flatten) = none) :
    c.round server = none := by
  rw [round, readUntil_eq_none h]
  split_ifs <;> rfl

end CoroHttpConnection

end Yalantinglibs.Cinatra
