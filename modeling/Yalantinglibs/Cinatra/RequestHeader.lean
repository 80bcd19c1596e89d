import Mathlib.Data.Nat.Digits.Lemmas
import Mathlib.Tactic.IntervalCases
import Mathlib.Tactic.Ring
import Yalantinglibs.Cinatra.CoroHttpResponse
import Yalantinglibs.Cinatra.Uri

/-!
# The head of a request of a client

`build_request_header` of `coro_http_client.hpp`, and what of a URI goes into it. The fields of a
client are a map; their order is not specified, and here it is the order in which they were added.

## Main definitions

* `HttpMessage` — a message in parts
* `HttpClient.buildRequestHeader` — the head of a request
* `HttpClient.asyncRequest` — what is sent on a connection that is open

## Main results

* `asyncRequest_eq_render` — the message that is sent for given fields
-/

set_option autoImplicit false

namespace Yalantinglibs.Cinatra

/-! ### Messages -/

/-- A message: its first line, its fields and its body. -/
structure HttpMessage where
  startLine : Bytes
  fields : List HttpHeader
  body : Bytes
  deriving DecidableEq, Repr

def HttpMessage.render (m : HttpMessage) : Bytes :=
  m.startLine ++ crcf ++ CoroHttpResponse.appendHeader m.fields ++ crcf ++ m.body

/-- A value is put in the place of the one with its key, or added. -/
def insertOrAssign (headers : List HttpHeader) (name value : Bytes) : List HttpHeader :=
  if name ∈ headers.map HttpHeader.name then
    headers.map fun h => if h.name = name then ⟨name, value⟩ else h
  else headers ++ [⟨name, value⟩]

/-- A field is added, if there is none with its key. -/
def emplaceHeader (headers : List HttpHeader) (h : HttpHeader) : List HttpHeader :=
  if h.name ∈ headers.map HttpHeader.name then headers else headers ++ [h]

/-! ### Lengths -/

theorem isDigit_ofNat {d : ℕ} (h : d < 10) : isDigit (.ofNat (48 + d)) = true := by
  interval_cases d <;> rfl

theorem toNat_digit {d : ℕ} (h : d < 10) : (UInt8.ofNat (48 + d)).toNat - 48 = d := by
  interval_cases d <;> rfl

/-- A length is written with digits. -/
theorem isDigit_of_mem_toCharsDec {n : ℕ} {c : UInt8} (h : c ∈ toCharsDec n) :
    isDigit c = true := by
  unfold toCharsDec at h
  split at h
  · rw [List.mem_singleton.mp h]
    rfl
  · obtain ⟨d, hd, rfl⟩ := List.mem_map.mp (List.mem_reverse.mp h)
    exact isDigit_ofNat (Nat.digits_lt_base (by omega) hd)

/-- A length that is written is read again. -/
theorem decimalValue_toCharsDec (n : ℕ) : decimalValue (toCharsDec n) = n := by
  have hdigits : ∀ ds : List ℕ, (∀ d ∈ ds, d < 10) →
      decimalValue (ds.map fun d => UInt8.ofNat (48 + d)).reverse = Nat.ofDigits 10 ds := by
    intro ds
    induction ds with
    | nil => exact fun _ => rfl
    | cons d ds ih =>
      -- the first digit is the last that is written
      intro hlt
      have hih : ((ds.map fun d => UInt8.ofNat (48 + d)).reverse).foldl
          (fun v b => v * 10 + (b.toNat - 48)) 0 = Nat.ofDigits 10 ds :=
        ih fun d hd => hlt d (List.mem_cons_of_mem _ hd)
      rw [List.map_cons, List.reverse_cons, decimalValue, List.foldl_append, hih, List.foldl_cons,
        List.foldl_nil, toNat_digit (hlt d List.mem_cons_self), Nat.ofDigits_cons]
      ring
  unfold toCharsDec
  split
  · rename_i hzero
    rw [hzero]
    rfl
  · rw [hdigits _ fun d hd => Nat.digits_lt_base (by omega) hd, Nat.ofDigits_digits]

/-! ### Requests -/

inductive ReqContentType
  | html | json | text | string | multipart | ranges | formUrlEncode | octetStream | xml | none
  deriving DecidableEq, Repr

/-- `get_content_type_str`. -/
def getContentTypeStr : ReqContentType → Bytes
  | .html => ascii "text/html; charset=UTF-8"
  | .json => ascii "application/json; charset=UTF-8"
  | .text => ascii "text/plain"
  | .string => ascii "text/html; charset=UTF-8"
  | .multipart => ascii "multipart/form-data; boundary="
  | .formUrlEncode => ascii "application/x-www-form-urlencoded"
  | .octetStream => ascii "application/octet-stream"
  | .xml => ascii "application/xml"
  | _ => []

/-- `BOUNDARY`. -/
def clientBoundary : Bytes := ascii "--CinatraBoundary2B8FAF4A80EDB307"

structure ReqContext where
  contentType : ReqContentType := .none
  reqHeader : Bytes := []
  content : Bytes := []

/-- What the head of a request depends on. -/
structure HttpClient where
  reqHeaders : List HttpHeader := []
  proxyBasicAuthUsername : Bytes := []
  proxyBasicAuthPassword : Bytes := []
  proxyBearerTokenAuthToken : Bytes := []
  base64Encode : Bytes → Bytes := id

namespace HttpClient

variable (client : HttpClient) (u : Uri) (method : HttpMethod) (ctx : ReqContext)
  (alreadyHasLen : Bool) (headers : List HttpHeader)

/-- `req_headers_`, with the type of the content. -/
def fields : List HttpHeader :=
  let reqHeaders := if headers = [] then client.reqHeaders else headers
  let typeStr := getContentTypeStr ctx.contentType
  if typeStr = [] then reqHeaders
  else
    insertOrAssign reqHeaders (ascii "Content-Type")
      (if ctx.contentType = .multipart then typeStr ++ clientBoundary else typeStr)

def requestLine : Bytes :=
  methodName method ++ ascii " " ++ u.getPath ++ (if u.query = [] then [] else ascii "?" ++ u.query) ++
    ascii " HTTP/1.1"

/-- The host is added where no fields are given and the client has none for it. -/
def hostLine : Bytes :=
  if headers = [] ∧ ascii "Host" ∉ client.reqHeaders.map HttpHeader.name then
    ascii "Host:" ++ u.host ++ crcf
  else []

def connectionField : List HttpHeader :=
  if ascii "Connection" ∈ (client.fields ctx headers).map HttpHeader.name then []
  else [⟨ascii "Connection", ascii "keep-alive"⟩]

def authorizationFields : List HttpHeader :=
  (if client.proxyBasicAuthUsername ≠ [] ∧ client.proxyBasicAuthPassword ≠ [] then
    [⟨ascii "Proxy-Authorization", ascii "Basic " ++ client.base64Encode
      (client.proxyBasicAuthUsername ++ ascii ":" ++ client.proxyBasicAuthPassword)⟩]
  else []) ++
    if client.proxyBearerTokenAuthToken ≠ [] then
      [⟨ascii "Proxy-Authorization", ascii "Bearer " ++ client.proxyBearerTokenAuthToken⟩]
    else []

/-- The length is added for content, and for a `POST` or `PUT` without content that is no form. -/
def lengthField : List HttpHeader :=
  if (ctx.content ≠ [] ∨ (method = .post ∨ method = .put) ∧ ctx.contentType ≠ .multipart) ∧
      ascii "Content-Length" ∉ (client.fields ctx headers).map HttpHeader.name ∧
      alreadyHasLen = false then
    [⟨ascii "Content-Length", toCharsDec ctx.content.length⟩]
  else []

/-- `build_request_header`. -/
def buildRequestHeader : Bytes :=
  requestLine u method ++ crcf ++ client.hostLine u headers ++
    CoroHttpResponse.appendHeader (client.fields ctx headers) ++
    CoroHttpResponse.appendHeader (client.connectionField ctx headers) ++
    CoroHttpResponse.appendHeader client.authorizationFields ++ ctx.reqHeader ++
    CoroHttpResponse.appendHeader (client.lengthField method ctx alreadyHasLen headers) ++ crcf

/-- `has_schema`. -/
def hasSchema (url : Bytes) : Bool :=
  [ascii "http://", ascii "https://", ascii "ws://", ascii "wss://"].any fun s => s.isPrefixOf url

/-- `handle_uri`: the brackets of an address are not part of the host. -/
def handleUri (uri : Bytes) : Option Uri :=
  let (ok, u) := Uri.parseFrom uri
  if ok then
    some (if u.host.head? = some 91 ∧ 2 < u.host.length then
      { u with host := u.host.tail.dropLast } else u)
  else none

/-- What `async_request` makes of a URI on a connection that is open. -/
def requestUri (uri : Bytes) : Option Uri :=
  if uri ≠ [] ∧ uri.head? ≠ some 47 then
    handleUri (if hasSchema uri then uri else ascii "http://" ++ uri)
  else some { path := uri }

/-- `async_request` on a connection that is open: what is sent. -/
def asyncRequest (uri : Bytes) : Option Bytes :=
  (requestUri uri).map fun u =>
    client.buildRequestHeader u method ctx false headers ++ ctx.content

/-- The message that is sent. -/
def message : HttpMessage where
  startLine := requestLine u method
  fields := client.fields ctx headers ++ client.connectionField ctx headers ++
    client.authorizationFields ++ client.lengthField method ctx false headers
  body := ctx.content

variable {client u method ctx headers} {uri : Bytes}

theorem appendHeader_append (hs hs' : List HttpHeader) :
    CoroHttpResponse.appendHeader (hs ++ hs') =
      CoroHttpResponse.appendHeader hs ++ CoroHttpResponse.appendHeader hs' := by
  rw [CoroHttpResponse.appendHeader, List.flatMap_append]
  rfl

/-- What is sent where fields are given. -/
theorem asyncRequest_eq_render (hheaders : headers ≠ []) (hreq : ctx.reqHeader = []) :
    client.asyncRequest method ctx headers uri =
      (requestUri uri).map fun u => (client.message u method ctx headers).render := by
  have hhost : ∀ u, client.hostLine u headers = [] := fun u => if_neg fun h => hheaders h.1
  rw [asyncRequest]
  congr 1
  funext u
  simp only [buildRequestHeader, message, HttpMessage.render, hhost, hreq, appendHeader_append,
    List.append_nil, List.append_assoc]

/-- A path is empty or starts with a slash. -/
def SlashPath (u : Uri) : Prop := u.path = [] ∨ u.path.head? = some 47

theorem SlashPath.getPath (h : SlashPath u) : u.getPath.head? = some 47 := by
  unfold Uri.getPath
  split
  · rfl
  · exact h.resolve_left ‹_›

/-- What has a scheme has a path from a slash on. -/
theorem slashPath_of_hasSchema (h : hasSchema uri = true) : SlashPath (Uri.parseFrom uri).2 := by
  have hschemes : ∀ scheme ∈ ([ascii "http", ascii "https", ascii "ws", ascii "wss"] : List Bytes),
      ∀ c ∈ scheme, c ≠ 47 ∧ c ≠ 58 ∧ c ≠ 0 := by decide
  unfold hasSchema at h
  obtain ⟨s, hs, hpre⟩ := List.any_eq_true.mp h
  obtain ⟨rest, rfl⟩ := List.isPrefixOf_iff_prefix.mp hpre
  simp only [List.mem_cons, List.not_mem_nil, or_false] at hs
  rcases hs with rfl | rfl | rfl | rfl
  · exact Uri.parseFrom_path (hschemes (ascii "http") (by decide)) rest
  · exact Uri.parseFrom_path (hschemes (ascii "https") (by decide)) rest
  · exact Uri.parseFrom_path (hschemes (ascii "ws") (by decide)) rest
  · exact Uri.parseFrom_path (hschemes (ascii "wss") (by decide)) rest

theorem SlashPath.handleUri (hpath : SlashPath (Uri.parseFrom uri).2)
    (h : HttpClient.handleUri uri = some u) : SlashPath u := by
  unfold HttpClient.handleUri at h
  dsimp only at h
  rw [← Option.some.inj (Option.ite_none_right_eq_some.mp h).2]
  split
  · exact hpath
  · exact hpath

/-- A URI that is taken apart has a path from a slash on. -/
theorem getPath_of_requestUri (hslash : uri.head? ≠ some 47) (h : requestUri uri = some u) :
    u.getPath.head? = some 47 := by
  unfold requestUri at h
  split at h
  · refine SlashPath.getPath (SlashPath.handleUri ?_ h)
    apply slashPath_of_hasSchema
    split
    · assumption
    · unfold hasSchema
      rw [List.any_eq_true]
      exact ⟨ascii "http://", List.mem_cons_self,
        List.isPrefixOf_iff_prefix.mpr (List.prefix_append _ _)⟩
  · rename_i hnot
    cases h
    have hnil : uri = [] := by
      by_contra hne
      exact hnot ⟨hne, hslash⟩
    exact SlashPath.getPath (.inl hnil)

end HttpClient

end Yalantinglibs.Cinatra
