import Yalantinglibs.Data.Ascii
import Yalantinglibs.Data.PrefixReader

/-!
# Heads of HTTP messages

`picohttpparser.h`, in the build without vector instructions. A head is read from left to right: the
line of the request or of the response, and the fields up to an empty line. While it reads the
fields of a request the parser takes note of what a `Connection` field asks for.

## Main definitions

* `phrParseRequest`, `phrParseResponse` — the two parsers
* `ConnectionFlags` — what the parser takes note of; a flag is set and never taken back

## Main results

* `phrParseRequest_flags` — the flags of earlier heads are kept
-/

set_option autoImplicit false

namespace Yalantinglibs.Cinatra

open Reader

/-- How a parser stops: `-1` and `-2`. -/
inductive ParseStop
  | failed
  | incomplete
  deriving DecidableEq, Repr

abbrev HeadReader (α : Type) := Reader ParseStop UInt8 α

structure HttpHeader where
  name : Bytes
  value : Bytes
  deriving DecidableEq, Repr

/-! ### Characters -/

/-- `token_char_map`. -/
def tokenChar (c : UInt8) : Bool :=
  (48 ≤ c && c ≤ 57) || (65 ≤ c && c ≤ 90) || (94 ≤ c && c ≤ 122) || c ∈ ascii "!#$%&'*+-.|~"

/-- What may not stand in the first line. -/
def isControl (c : UInt8) : Bool := c < 32 || c = 127

/-- What ends a value: a control other than the tabulator. -/
def isValueEnd (c : UInt8) : Bool := (c < 32 && c ≠ 9) || c = 127

def isBlank (c : UInt8) : Bool := c = 32 || c = 9

/-! ### Pieces of a head -/

/-- Whether a line ends here. -/
def eol : HeadReader Bool
  | [] => .error .incomplete
  | [c] => if c = 13 then .error .incomplete else .ok (c = 10, if c = 10 then [] else [c])
  | c :: d :: rest =>
    if c = 13 then if d = 10 then .ok (true, rest) else .error .failed
    else .ok (c = 10, if c = 10 then d :: rest else c :: d :: rest)

/-- Whether a blank comes next. -/
def peekBlank : HeadReader Bool
  | [] => .error .incomplete
  | c :: rest => .ok (isBlank c, c :: rest)

/-- `ADVANCE_TOKEN`: the text up to a space, and the space. -/
def advanceToken : HeadReader Bytes := do
  let tok ← takeUntil .incomplete .failed (· = 32) isControl
  skipOne .incomplete
  return tok

/-- `ADVANCE_PATH`: the same, and whether there is a question mark. -/
def advancePath : HeadReader (Bytes × Bool) :=
  (fun path => (path, path.contains 63)) <$> advanceToken

/-- `parse_http_version`. -/
def parseHttpVersion : HeadReader ℕ
  | a :: b :: c :: d :: e :: f :: g :: n :: next :: rest =>
    if [a, b, c, d, e, f, g] = ascii "HTTP/1." ∧ 48 ≤ n ∧ n ≤ 57 then
      .ok (n.toNat - 48, next :: rest)
    else .error .failed
  | _ => .error .incomplete

/-- `get_token_to_eol`. -/
def getTokenToEol : HeadReader Bytes := do
  let tok ← takeUntil .incomplete .failed isValueEnd fun _ => false
  if ← eol then return tok else stop .failed

/-- The name of a field, with its colon. -/
def headerName : HeadReader Bytes := do
  let name ← takeUntil .incomplete .failed (· = 58) fun c => !tokenChar c
  if name = [] then stop .failed
  else
    skipOne .incomplete
    return name

/-- A field. A line that starts with a blank goes on with the field before it, and has no name. -/
def parseField (first : Bool) : HeadReader HttpHeader := do
  let blank ← peekBlank
  if !first && blank then
    return ⟨[], ← getTokenToEol⟩
  else
    let name ← headerName
    let _ ← takeUntil .incomplete .failed (fun c => !isBlank c) fun _ => false
    return ⟨name, ← getTokenToEol⟩

/-! ### Fields -/

/-- `has_connection`, `has_close` and `has_upgrade`. -/
structure ConnectionFlags where
  hasConnection : Bool := false
  hasClose : Bool := false
  hasUpgrade : Bool := false
  deriving DecidableEq, Repr

/-- Both sets of flags together. -/
def ConnectionFlags.or (f g : ConnectionFlags) : ConnectionFlags :=
  ⟨f.hasConnection || g.hasConnection, f.hasClose || g.hasClose, f.hasUpgrade || g.hasUpgrade⟩

/-- What a field says about the connection. Of its name, the first letter is not looked at. -/
def connectionFlags (header : HttpHeader) : ConnectionFlags :=
  if header.name.length = 10 ∧ header.name.tail = ascii "onnection" then
    match header.value with
    | [] => { hasConnection := true }
    | ch :: _ =>
      if ch = 85 ∨ ch = 117 then { hasConnection := true, hasUpgrade := true }
      else if ch = 99 ∨ ch = 67 then { hasConnection := true, hasClose := true }
      else if (ch = 107 ∨ ch = 75) ∧ ascii "pgrade" <:+: header.value then
        { hasConnection := true, hasUpgrade := true }
      else { hasConnection := true }
  else {}

/-- `parse_headers`, with the number of fields that there still is room for. -/
def parseHeaders : ℕ → List HttpHeader → ConnectionFlags →
    HeadReader (List HttpHeader × ConnectionFlags)
  | 0, headers, flags => do
    if ← eol then return (headers, flags) else stop .failed
  | room + 1, headers, flags => do
    if ← eol then return (headers, flags)
    else
      let header ← parseField headers.isEmpty
      parseHeaders room (headers ++ [header]) (flags.or (connectionFlags header))

/-! ### Requests and responses -/

structure RequestHead where
  method : Bytes
  path : Bytes
  hasQuery : Bool
  minorVersion : ℕ
  headers : List HttpHeader
  deriving DecidableEq, Repr

/-- `phr_parse_request`: the head, and the flags after it. One empty line before the head is
skipped. -/
def phrParseRequest (maxHeaders : ℕ) (flags : ConnectionFlags) :
    HeadReader (RequestHead × ConnectionFlags) := do
  let _ ← eol
  let method ← advanceToken
  let (path, hasQuery) ← advancePath
  let minorVersion ← parseHttpVersion
  if ← eol then
    let (headers, flags) ← parseHeaders maxHeaders [] flags
    return (⟨method, path, hasQuery, minorVersion, headers⟩, flags)
  else stop .failed

structure ResponseHead where
  minorVersion : ℕ
  status : ℕ
  msg : Bytes
  headers : List HttpHeader
  deriving DecidableEq, Repr

/-- The space before a status. -/
def space : HeadReader Unit
  | [] => .error .incomplete
  | c :: rest => if c = 32 then .ok ((), rest) else .error .failed

/-- `PARSE_INT_3`, with the space behind it. -/
def parseStatus : HeadReader ℕ
  | a :: b :: c :: d :: rest =>
    if a < 48 ∨ 57 < a ∨ b < 48 ∨ 57 < b ∨ c < 48 ∨ 57 < c ∨ d ≠ 32 then .error .failed
    else .ok ((a.toNat - 48) * 100 + (b.toNat - 48) * 10 + (c.toNat - 48), rest)
  | _ => .error .incomplete

/-- `phr_parse_response`. Nothing looks at what it notes about the connection. -/
def phrParseResponse (maxHeaders : ℕ) : HeadReader ResponseHead := do
  let minorVersion ← parseHttpVersion
  space
  let status ← parseStatus
  let msg ← getTokenToEol
  let (headers, _) ← parseHeaders maxHeaders [] {}
  return ⟨minorVersion, status, msg, headers⟩

/-! ### Flags -/

namespace ConnectionFlags

@[simp] theorem or_empty (f : ConnectionFlags) : f.or {} = f := by
  simp [or]

@[simp] theorem empty_or (f : ConnectionFlags) : ({} : ConnectionFlags).or f = f := by
  simp [or]

theorem or_assoc (f g h : ConnectionFlags) : (f.or g).or h = f.or (g.or h) := by
  simp [or, Bool.or_assoc]

end ConnectionFlags

/-- The flags of earlier heads are kept, and change nothing else. -/
theorem parseHeaders_flags (room : ℕ) (headers : List HttpHeader)
    (flags flags' : ConnectionFlags) :
    parseHeaders room headers (flags.or flags') =
      (fun read => (read.1, flags.or read.2)) <$> parseHeaders room headers flags' := by
  induction room generalizing headers flags' with
  | zero =>
    rw [parseHeaders, parseHeaders, map_bind]
    congr 1
    funext ended
    cases ended <;> rfl
  | succ room ih =>
    rw [parseHeaders, parseHeaders, map_bind]
    congr 1
    funext ended
    cases ended with
    | true => rfl
    | false =>
      -- the field that is read adds its flags to either
      simp only [Bool.false_eq_true, if_false, map_bind, ConnectionFlags.or_assoc, ih]

theorem phrParseRequest_flags (maxHeaders : ℕ) (flags : ConnectionFlags) :
    phrParseRequest maxHeaders flags =
      (fun read => (read.1, flags.or read.2)) <$> phrParseRequest maxHeaders {} := by
  have hfields := parseHeaders_flags maxHeaders [] flags {}
  rw [ConnectionFlags.or_empty] at hfields
  rw [phrParseRequest, phrParseRequest, hfields]
  simp only [map_bind, bind_map_left]
  congr 1
  funext _
  congr 1
  funext method
  congr 1
  funext path
  congr 1
  funext minorVersion
  congr 1
  funext ended
  cases ended with
  | true => simp only [if_true, map_bind, map_pure]
  | false => rfl

/-! ### What follows a head does not matter -/

theorem local_eol : Local eol := by
  intro buf ended rest h more
  match buf with
  | [] => cases h
  | [c] =>
    rw [eol] at h
    split_ifs at h with hcr hlf
    · cases h
      subst hlf
      cases more <;> rfl
    · cases h
      cases more <;> simp [eol, hcr, hlf]
  | c :: d :: buf =>
    rw [eol] at h
    rw [List.cons_append, List.cons_append, eol]
    split_ifs at h ⊢ with hcr hd hlf
    · cases h
      rfl
    · cases h
      rfl
    · cases h
      rfl

theorem local_parseHttpVersion : Local parseHttpVersion := by
  intro buf minor rest h more
  match buf with
  | a :: b :: c :: d :: e :: f :: g :: n :: next :: buf =>
    rw [parseHttpVersion] at h
    simp only [List.cons_append]
    rw [parseHttpVersion]
    split_ifs at h ⊢
    cases h
    rfl
  | [] | [_] | [_, _] | [_, _, _] | [_, _, _, _] | [_, _, _, _, _] | [_, _, _, _, _, _]
  | [_, _, _, _, _, _, _] | [_, _, _, _, _, _, _, _] => cases h

theorem local_getTokenToEol : Local getTokenToEol := by
  apply (local_takeUntil _ _ _ _).bind
  intro tok
  apply local_eol.bind
  intro ended
  exact .ite (local_pure tok) (local_stop _)

theorem local_space : Local space := by
  intro buf u rest h more
  cases buf with
  | nil => cases h
  | cons c buf =>
    rw [space] at h
    rw [List.cons_append, space]
    split_ifs at h ⊢
    cases h
    rfl

theorem local_parseStatus : Local parseStatus := by
  intro buf status rest h more
  match buf with
  | a :: b :: c :: d :: buf =>
    rw [parseStatus] at h
    simp only [List.cons_append]
    rw [parseStatus]
    split_ifs at h ⊢
    cases h
    rfl
  | [] | [_] | [_, _] | [_, _, _] => cases h

end Yalantinglibs.Cinatra
