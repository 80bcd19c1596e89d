import Mathlib.Data.List.TakeWhile
import Yalantinglibs.Cinatra.PicoHttpParser

/-!
# The parser of a connection

`http_parser.hpp`. A connection has one parser for all its messages. A head that is parsed replaces
what an earlier one left, all but the flags of the `Connection` fields.

## Main definitions

* `HttpParser` — the members of the class
* `HttpParser.parseRequest`, `HttpParser.parseResponse` — the two ways to parse a head
* `methodType` — the table of the methods

## Main results

* `parseRequest_of_ok` — what is left of an earlier request behind a head that is parsed
-/

set_option autoImplicit false

namespace Yalantinglibs.Cinatra

/-! ### Methods -/

inductive HttpMethod
  | nil | get | head | post | put | trace | patch | connect | options | del
  deriving DecidableEq, Repr

def methodName : HttpMethod → Bytes
  | .del => ascii "DELETE"
  | .get => ascii "GET"
  | .head => ascii "HEAD"
  | .post => ascii "POST"
  | .put => ascii "PUT"
  | .patch => ascii "PATCH"
  | .connect => ascii "CONNECT"
  | .options => ascii "OPTIONS"
  | .trace => ascii "TRACE"
  | .nil => ascii "NIL"

/-- `method_table`. -/
def methodTable : List HttpMethod :=
  [.post, .get, .del, .nil, .nil, .nil, .put, .trace, .nil, .nil, .options, .nil, .nil, .nil, .head,
    .nil, .nil, .nil, .patch, .connect]

/-- A character without the bit `0x20`. -/
def clearCaseBit (n : ℕ) : ℕ := n - (n &&& 32)

/-- `method_type`, on the text from the method on: only the first two characters are looked at, and
of a shorter method what follows it. The table has no place for what is not ASCII. -/
def methodType : Bytes → HttpMethod
  | a :: b :: _ =>
    if 128 ≤ a ∨ 128 ≤ b then .nil
    else methodTable.getD ((clearCaseBit a.toNat ^^^ clearCaseBit (b.toNat + 1)) % 20) .nil
  | _ => .nil

/-! ### Numbers and names -/

/-- The number of a row of decimal digits. -/
def decimalValue (ds : Bytes) : ℕ := ds.foldl (fun v b => v * 10 + (b.toNat - 48)) 0

/-- `std::from_chars` for an `int64_t`. What follows the digits is not looked at. -/
def fromCharsInt64 (s : Bytes) : Option ℤ :=
  let digits := (if s.head? = some 45 then s.tail else s).takeWhile isDigit
  let value : ℤ := if s.head? = some 45 then -decimalValue digits else decimalValue digits
  if digits ≠ [] ∧ -2 ^ 63 ≤ value ∧ value < 2 ^ 63 then some value else none

def toLower (c : UInt8) : UInt8 := if 65 ≤ c ∧ c ≤ 90 then c + 32 else c

/-- `iequal0`. -/
def iequal0 (a b : Bytes) : Bool := a.map toLower = b.map toLower

/-- `CINATRA_MAX_HTTP_HEADER_FIELD_SIZE`. -/
def maxHttpHeaderFieldSize : ℕ := 100

/-! ### The parser -/

structure HttpParser where
  headers : List HttpHeader := []
  headerLen : ℤ := 0
  bodyLen : ℤ := 0
  flags : ConnectionFlags := {}
  method : Bytes := []
  url : Bytes := []
  fullUrl : Bytes := []
  queries : List (Bytes × Bytes) := []
  status : ℕ := 0
  msg : Bytes := []
  deriving DecidableEq, Repr

/-- The value of the first field with a name, and the empty text where there is none. -/
def headerValue (headers : List HttpHeader) (key : Bytes) : Bytes :=
  ((headers.find? fun h => iequal0 h.name key).map HttpHeader.value).getD []

/-- `parse_body_len`. -/
def parseBodyLen (headers : List HttpHeader) : ℤ :=
  let value := headerValue headers (ascii "content-length")
  if value = [] then 0 else (fromCharsInt64 value).getD (-1)

/-- Add a pair to a map that does not have the key. -/
def emplace (queries : List (Bytes × Bytes)) (key val : Bytes) : List (Bytes × Bytes) :=
  if key ∈ queries.map Prod.fst then queries else queries ++ [(key, val)]

/-- One piece of a query. -/
def parseQueryPiece (queries : List (Bytes × Bytes)) (s : Bytes) : List (Bytes × Bytes) :=
  let key := s.takeWhile (· ≠ 61)
  if key = [] then queries else emplace queries key (s.dropWhile (· ≠ 61)).tail

/-- `parse_query`: the pairs are added to those that are there. -/
def parseQuery (queries : List (Bytes × Bytes)) (str : Bytes) : List (Bytes × Bytes) :=
  (str.splitOn 38).foldl parseQueryPiece queries

/-- `parse_request` and `parse_response` return a length, or one of the two codes. -/
def ParseStop.code : ParseStop → ℤ
  | .failed => -1
  | .incomplete => -2

/-- The body of a `GET` or `HEAD` request is not looked for. -/
def requestBodyLen (head : RequestHead) : ℤ :=
  match methodType (head.method ++ 32 :: head.path) with
  | .get | .head => 0
  | _ => parseBodyLen head.headers

namespace HttpParser

variable (p : HttpParser)

def getHeaderValue (key : Bytes) : Bytes := headerValue p.headers key

/-- The members after the head of a request is parsed. -/
def withRequest (head : RequestHead) (flags : ConnectionFlags) (headerLen : ℤ) : HttpParser :=
  { p with
    headers := head.headers
    headerLen := headerLen
    bodyLen := requestBodyLen head
    flags := flags
    method := head.method
    url := if head.hasQuery then head.path.takeWhile (· ≠ 63) else head.path
    fullUrl := head.path
    queries := if head.hasQuery then parseQuery [] (head.path.dropWhile (· ≠ 63)).tail else [] }

/-- `parse_request`. Where the head cannot be parsed, nothing looks at the other members. -/
def parseRequest (data : Bytes) : HttpParser × ℤ :=
  match phrParseRequest maxHttpHeaderFieldSize p.flags data with
  | .error stop => ({ p with headerLen := stop.code }, stop.code)
  | .ok ((head, flags), rest) =>
    (p.withRequest head flags (data.length - rest.length), data.length - rest.length)

/-- `parse_response`. -/
def parseResponse (data : Bytes) : HttpParser × ℤ :=
  match phrParseResponse maxHttpHeaderFieldSize data with
  | .error stop => ({ p with headerLen := stop.code }, stop.code)
  | .ok (head, rest) =>
    let headerLen : ℤ := data.length - rest.length
    ({ p with
        headers := head.headers
        headerLen := headerLen
        bodyLen := parseBodyLen head.headers
        status := head.status
        msg := head.msg },
      headerLen)

def isChunked : Bool := p.getHeaderValue (ascii "transfer-encoding") = ascii "chunked"

def isMultipart : Bool := ascii "multipart" <:+: p.getHeaderValue (ascii "Content-Type")

/-! ### What is left of earlier messages -/

variable {p} {data rest : Bytes} {head : RequestHead} {found : ConnectionFlags}

/-- A head that is parsed replaces what earlier requests left, all but the flags. -/
theorem parseRequest_of_ok
    (h : phrParseRequest maxHttpHeaderFieldSize {} data = .ok ((head, found), rest)) :
    p.parseRequest data =
      (p.withRequest head (p.flags.or found) (data.length - rest.length),
        (data.length : ℤ) - rest.length) := by
  have hflags : phrParseRequest maxHttpHeaderFieldSize p.flags data =
      .ok ((head, p.flags.or found), rest) := by
    rw [phrParseRequest_flags]
    exact Reader.map_eq_ok_iff.mpr ⟨(head, found), h, rfl⟩
  simp only [parseRequest, hflags]

end HttpParser

end Yalantinglibs.Cinatra
