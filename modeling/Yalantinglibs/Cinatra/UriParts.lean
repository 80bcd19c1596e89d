import Yalantinglibs.Cinatra.HttpParser
import Yalantinglibs.Cinatra.UriScan

/-!
# The components of a URI

A URI is put together from its components and the delimiters that are there. `parse_from` takes a
text apart into components from which it can be put together again, but for characters that it
passes over behind a scheme and for an `@` that gets into the host.

## Main definitions

* `UriParts` — the components, each of which may be absent
* `UriParts.Stored` — the members of `uri_t` are the components
* `UriParts.Generic` — the grammar of a URI with an authority
* `Recomposed` — the members are components of a text
* `SplitsRight` — what `parse_from` has to do with a text
* `Plain` — the texts that it does this with

## Main results

* `splitsRight_iff` — a text is split right just if it is plain
-/

set_option autoImplicit false

namespace Yalantinglibs.Cinatra

namespace Uri

/-! ### Components -/

/-- What is between the slashes and the path. -/
structure Authority where
  uinfo : Option Bytes
  host : Bytes
  port : Option Bytes

/-- A component that is absent is not the same as an empty one. -/
structure UriParts where
  scheme : Bytes
  authority : Option Authority
  path : Bytes
  query : Option Bytes
  fragment : Option Bytes

/-- The user info, its `@` and the host. -/
def Authority.front (a : Authority) : Bytes := (a.uinfo.elim [] (· ++ [64])) ++ a.host

def Authority.text (a : Authority) : Bytes := a.front ++ a.port.elim [] (58 :: ·)

namespace UriParts

/-- What is behind the path. -/
def tail (parts : UriParts) : Bytes :=
  parts.query.elim [] (63 :: ·) ++ parts.fragment.elim [] (35 :: ·)

/-- What is behind the colon of the scheme. -/
def rest (parts : UriParts) : Bytes :=
  parts.authority.elim [] (fun a => 47 :: 47 :: a.text) ++ (parts.path ++ parts.tail)

/-- The components and the delimiters of those that are there. -/
def text (parts : UriParts) : Bytes := parts.scheme ++ 58 :: parts.rest

/-- The members are the components. Those that are absent are empty. -/
structure Stored (parts : UriParts) (u : Uri) : Prop where
  schema : u.schema = parts.scheme
  uinfo : u.uinfo = (parts.authority.bind Authority.uinfo).getD []
  host : u.host = parts.authority.elim [] Authority.host
  port : u.port = (parts.authority.bind Authority.port).getD []
  path : u.path = parts.path
  query : u.query = parts.query.getD []
  fragment : u.fragment = parts.fragment.getD []

/-- The delimiters are those of the text: none is taken for a character of a component that it would
end, and a component that is absent has none. -/
structure Delimited (parts : UriParts) : Prop where
  scheme : ∀ c ∈ parts.scheme, c ≠ 58 ∧ c ≠ 47
  authority : parts.authority = none → ¬ [47, 47] <+: parts.rest
  host : ∀ a ∈ parts.authority, ∀ c ∈ a.text, c ≠ 47 ∧ c ≠ 63 ∧ c ≠ 35
  port : ∀ a ∈ parts.authority, a.port = none → ∀ x d, a.host = x ++ 58 :: d →
    ¬ d.all isDecimal = true
  path : ∀ c ∈ parts.path, c ≠ 63 ∧ c ≠ 35
  query : ∀ q ∈ parts.query, 35 ∉ q

end UriParts

/-- A text is put together from components that are the members, the port is all digits, and in the
host there is neither an `@` nor a slash. -/
def Recomposed (s : Bytes) (u : Uri) : Prop :=
  (∃ parts : UriParts, s = parts.text ∧ parts.Stored u ∧ parts.Delimited) ∧
    u.port.all isDecimal = true ∧ 64 ∉ u.host ∧ 47 ∉ u.host

/-! ### The grammar -/

def isHexDigit (c : UInt8) : Bool :=
  isDecimal c || (65 ≤ c && c ≤ 70) || (97 ≤ c && c ≤ 102)

/-- The sub-delimiters of a URI. There is no bar among them. -/
def isGenericDelim (c : UInt8) : Bool := c ∈ ascii "!$&'()*+,;="

/-- Characters of a kind and percent-encoded ones. -/
def isEncoded (p : UInt8 → Bool) : Bytes → Bool
  | 37 :: a :: b :: s => isHexDigit a && isHexDigit b && isEncoded p s
  | c :: s => c ≠ 37 && p c && isEncoded p s
  | [] => true

/-- A registered name. -/
def isRegName (s : Bytes) : Bool := isEncoded (fun c => isUnreserved c || isGenericDelim c) s

def isUserInfo (s : Bytes) : Bool :=
  isEncoded (fun c => isUnreserved c || isGenericDelim c || c = 58) s

/-- `pchar`, without the percent-encoded ones. -/
def isPchar (c : UInt8) : Bool := isUnreserved c || isGenericDelim c || c = 58 || c = 64

/-- A path behind an authority. -/
def isPathAbempty (s : Bytes) : Bool :=
  (s = [] || s.head? = some 47) && isEncoded (fun c => isPchar c || c = 47) s

/-- A query or a fragment. -/
def isQueryText (s : Bytes) : Bool := isEncoded (fun c => isPchar c || c = 47 || c = 63) s

/-- A number from 0 to 255 without zeros in front. -/
def IsOctet (s : Bytes) : Prop := ∃ n < 256, s = ascii (toString n)

def IsIPv4 (s : Bytes) : Prop :=
  ∃ a b c d, IsOctet a ∧ IsOctet b ∧ IsOctet c ∧ IsOctet d ∧
    s = a ++ 46 :: (b ++ 46 :: (c ++ 46 :: d))

/-- One to four hexadecimal digits. -/
def isH16 (s : Bytes) : Bool := s.all isHexDigit && 1 ≤ s.length && s.length ≤ 4

/-- Groups of an address, the last two of which may be written as an IPv4 address. -/
structure Groups where
  groups : List Bytes
  dotted : Option Bytes

/-- How many groups there are. -/
def Groups.count (g : Groups) : ℕ := g.groups.length + if g.dotted.isSome then 2 else 0

def Groups.text (g : Groups) : Bytes := [58].intercalate (g.groups ++ g.dotted.toList)

def Groups.WellFormed (g : Groups) : Prop :=
  (∀ h ∈ g.groups, isH16 h = true) ∧ ∀ a ∈ g.dotted, IsIPv4 a

/-- Eight groups, or fewer with two colons that stand for the others. -/
def IsIPv6 (s : Bytes) : Prop :=
  (∃ g : Groups, g.WellFormed ∧ g.count = 8 ∧ s = g.text) ∨
    ∃ before after : Groups, before.dotted = none ∧ before.WellFormed ∧ after.WellFormed ∧
      before.count + after.count ≤ 7 ∧ s = before.text ++ 58 :: 58 :: after.text

inductive IsHost : Bytes → Prop
  | regName {s : Bytes} (h : isRegName s = true) : IsHost s
  | ipv4 {s : Bytes} (h : IsIPv4 s) : IsHost s
  | ipv6 {s : Bytes} (h : IsIPv6 s) : IsHost (91 :: (s ++ [93]))

/-- Schemes are compared without regard to case. -/
def IsWebScheme (scheme : Bytes) : Prop :=
  scheme.map toLower ∈ [ascii "http", ascii "https", ascii "ws", ascii "wss"]

/-- A URI of the grammar that has an authority. -/
structure UriParts.Generic (parts : UriParts) (a : Authority) : Prop where
  authority : parts.authority = some a
  scheme : IsWebScheme parts.scheme
  uinfo : ∀ uinfo ∈ a.uinfo, isUserInfo uinfo = true
  host : IsHost a.host
  port : ∀ port ∈ a.port, port.all isDecimal = true
  path : isPathAbempty parts.path = true
  query : ∀ query ∈ parts.query, isQueryText query = true
  fragment : ∀ fragment ∈ parts.fragment, isQueryText fragment = true

/-! ### What is asked of `parse_from` -/

/-- Nothing is read behind the text, what is accepted can be put together again, and the URIs of the
grammar are accepted and taken apart as the grammar says. -/
structure SplitsRight (s : Bytes) : Prop where
  inBounds : scan (s ++ [0]) ≠ .error .overrun
  recomposed : ∀ u rest, scan (s ++ [0]) = .ok (u, rest) → Recomposed s u
  accepted : ∀ parts a, UriParts.Generic parts a → s = parts.text →
    ∃ u rest, scan (s ++ [0]) = .ok (u, rest) ∧ parts.Stored u

/-- What is behind a path is made of characters that a query and a fragment may have. -/
def isLegalQuery : Bytes → Bool
  | 63 :: s => (cutAt [35] s).1.all isQueryCharacter && (cutAt [35] s).2.tail.all isQueryCharacter
  | s => s.tail.all isQueryCharacter

/-- What is behind an authority is made of characters that a path and what is behind it may have. -/
def isLegalTail (s : Bytes) : Bool :=
  (cutAt [63, 35] s).1.all isPathCharacter && isLegalQuery (cutAt [63, 35] s).2

/-- The texts that are split right. Behind the colon of a scheme, there is nothing that is passed
over. In an authority, an `@` has nothing but user info in front of it, if nothing else is wrong
with the text. A user info and a host of the grammar have no sub-delimiters. -/
structure Plain (s : Bytes) : Prop where
  passed : ∀ scheme rest, s = scheme ++ 58 :: rest → isScheme scheme = true →
    ∀ c ∈ rest.head?, isPathCharacter c = true ∨ c = 63 ∨ c = 35
  ats : ∀ scheme a tail, s = scheme ++ 58 :: 47 :: 47 :: (a ++ tail) → isScheme scheme = true →
    (∀ c ∈ a, c ∉ ([47, 63, 35] : Bytes)) → (∀ c ∈ tail.head?, c ∈ ([47, 63, 35] : Bytes)) →
    a.all isAuthorityCharacter = true → isLegalTail tail = true →
      ∀ x y, a = x ++ 64 :: y → x.all isUserInfoCharacter = true

/-! ### The components behind an authority -/

section Tail

variable {s t : Bytes} {u v : Uri} {c : UInt8}

theorem parseFragment_true (hu : u.fragment = []) (hs : ∀ c ∈ s.head?, c = 35)
    (h : parseFragment u s = (true, v)) :
    ∃ fragment : Option Bytes, s = fragment.elim [] (35 :: ·) ∧
      v = { u with fragment := fragment.getD [] } := by
  cases s with
  | nil =>
    cases h
    exact ⟨none, rfl, by rw [Option.getD_none, ← hu]⟩
  | cons c s =>
    obtain rfl := hs c rfl
    rw [parseFragment_cons] at h
    split_ifs at h
    · cases h
      exact ⟨some s, rfl, rfl⟩
    · cases h

theorem parseQueryPart_true (hquery : u.query = []) (hu : u.fragment = [])
    (hs : ∀ c ∈ s.head?, c = 63 ∨ c = 35) (h : parseQueryPart u s = (true, v)) :
    ∃ query fragment : Option Bytes,
      s = query.elim [] (63 :: ·) ++ fragment.elim [] (35 :: ·) ∧ (∀ q ∈ query, 35 ∉ q) ∧
        v = { u with query := query.getD [], fragment := fragment.getD [] } := by
  by_cases hmark : s.head? = some 63
  · obtain ⟨s, rfl⟩ := List.head?_eq_some_iff.mp hmark
    rw [parseQueryPart_cons] at h
    split_ifs at h
    · obtain ⟨fragment, hfragment, rfl⟩ := parseFragment_true (by exact hu)
        (fun c hc => by
          obtain ⟨t, ht⟩ := List.head?_eq_some_iff.mp hc
          simpa using head_cutAt ht) h
      refine ⟨some (cutAt [35] s).1, fragment, ?_, ?_, rfl⟩
      · rw [Option.elim_some, List.cons_append, ← hfragment, cutAt_append]
      · intro q hq hmem
        rw [Option.mem_some_iff] at hq
        exact notMem_cutAt (hq ▸ hmem) (by decide)
    · cases h
  · rw [parseQueryPart_of_ne u hmark] at h
    obtain ⟨fragment, rfl, rfl⟩ := parseFragment_true hu
      (fun c hc => (hs c hc).resolve_left fun heq => hmark (heq ▸ hc)) h
    exact ⟨none, fragment, rfl, by simp, by rw [Option.getD_none, ← hquery]⟩

theorem parsePath_true (hpath : u.path = []) (hquery : u.query = []) (hu : u.fragment = [])
    (hs : ∀ c ∈ s.head?, isPathCharacter c = true ∨ c = 63 ∨ c = 35)
    (h : parsePath u s = (true, v)) :
    ∃ (path : Bytes) (query fragment : Option Bytes),
      s = path ++ (query.elim [] (63 :: ·) ++ fragment.elim [] (35 :: ·)) ∧
        (∀ c ∈ path, c ≠ 63 ∧ c ≠ 35) ∧ (∀ q ∈ query, 35 ∉ q) ∧
        v = { u with path := path, query := query.getD [], fragment := fragment.getD [] } := by
  cases s with
  | nil =>
    cases h
    refine ⟨[], none, none, rfl, by simp, by simp, ?_⟩
    cases u
    cases hpath
    cases hquery
    cases hu
    rfl
  | cons c s =>
    rw [parsePath_cons] at h
    split_ifs at h with hc hall
    · obtain ⟨query, fragment, hrest, hq, rfl⟩ := parseQueryPart_true (by exact hquery)
        (by exact hu) (fun c hc => by
          obtain ⟨t, ht⟩ := List.head?_eq_some_iff.mp hc
          simpa using head_cutAt ht) h
      refine ⟨(cutAt [63, 35] (c :: s)).1, query, fragment, ?_, ?_, hq, rfl⟩
      · rw [← hrest, cutAt_append]
      · intro d hd
        simpa using notMem_cutAt hd
    · cases h
    · obtain ⟨query, fragment, hrest, hq, rfl⟩ := parseQueryPart_true hquery hu
        (fun d hd => (hs d hd).resolve_left fun hd' => hc (by cases hd; exact hd')) h
      exact ⟨[], query, fragment, hrest, by simp, hq, by rw [← hpath]⟩

end Tail

/-! ### The components of an authority -/

section AuthorityParts

variable {a : Bytes}

/-- The port behind the last colon, if there is one. -/
theorem exists_port (a : Bytes) : ∃ (h : Bytes) (port : Option Bytes),
    a = h ++ port.elim [] (58 :: ·) ∧ splitPort a = (h, port.getD []) ∧
      (port.getD []).all isDecimal = true ∧
      (port = none → ∀ x d, h = x ++ 58 :: d → ¬ d.all isDecimal = true) := by
  by_cases hcolon : ∃ x d, a = x ++ 58 :: d ∧ d.all isDecimal = true
  · obtain ⟨x, d, rfl, hd⟩ := hcolon
    exact ⟨x, some d, rfl, splitPort_append x hd, hd, fun hnone => by cases hnone⟩
  · have hno : ∀ x d, a = x ++ 58 :: d → ¬ d.all isDecimal = true := by
      intro x d ha hd
      exact hcolon ⟨x, d, ha, hd⟩
    refine ⟨a, none, ?_, splitPort_of_forall hno, rfl, fun _ => hno⟩
    rw [Option.elim_none, List.append_nil]

/-- The user info in front of an `@`, if there is one. -/
theorem exists_uinfo (h : Bytes) : ∃ (uinfo : Option Bytes) (host : Bytes),
    h = uinfo.elim [] (· ++ [64]) ++ host ∧ splitUinfo h = (uinfo.getD [], host) ∧
      (uinfo.getD []).all isUserInfoCharacter = true ∧
      (uinfo = none → ∀ x y, h = x ++ 64 :: y → ¬ x.all isUserInfoCharacter = true) := by
  by_cases hat : ∃ x y, h = x ++ 64 :: y ∧ x.all isUserInfoCharacter = true
  · obtain ⟨x, y, rfl, hx⟩ := hat
    refine ⟨some x, y, ?_, splitUinfo_append hx y, hx, fun hnone => by cases hnone⟩
    rw [Option.elim_some, List.append_assoc, List.singleton_append]
  · have hno : ∀ x y, h = x ++ 64 :: y → ¬ x.all isUserInfoCharacter = true := by
      intro x y hxy hx
      exact hat ⟨x, y, hxy, hx⟩
    exact ⟨none, h, rfl, splitUinfo_of_forall hno, rfl, fun _ => hno⟩

/-- What an authority is taken apart into. -/
theorem exists_authority (a : Bytes) : ∃ authority : Authority, a = authority.text ∧
    (splitUinfo (splitPort a).1).1 = authority.uinfo.getD [] ∧
    (splitUinfo (splitPort a).1).2 = authority.host ∧
    (splitPort a).2 = authority.port.getD [] ∧
    (authority.port.getD []).all isDecimal = true ∧
    (authority.uinfo.getD []).all isUserInfoCharacter = true ∧
    (authority.port = none → ∀ x d, authority.host = x ++ 58 :: d → ¬ d.all isDecimal = true) ∧
    (authority.uinfo = none → ∀ x y, authority.host = x ++ 64 :: y →
      ¬ x.all isUserInfoCharacter = true) := by
  obtain ⟨h, port, ha, hsplit, hport, hcolon⟩ := exists_port a
  obtain ⟨uinfo, host, rfl, huser, huinfo, hat⟩ := exists_uinfo h
  refine ⟨⟨uinfo, host, port⟩, ha, ?_, ?_, ?_, hport, huinfo, ?_, ?_⟩
  · rw [hsplit, huser]
  · rw [hsplit, huser]
  · rw [hsplit]
  · intro hnone x d hhost
    refine hcolon hnone (uinfo.elim [] (· ++ [64]) ++ x) d ?_
    rw [List.append_assoc, ← show host = x ++ 58 :: d from hhost]
  · intro hnone x y hhost
    refine hat hnone x y ?_
    rw [show uinfo = none from hnone, Option.elim_none, List.nil_append]
    exact hhost

end AuthorityParts

/-! ### What is accepted is put together again -/

section Accepted

variable {s schema rest a tail : Bytes} {u : Uri}

theorem ne_of_isScheme (h : isScheme schema = true) {c : UInt8} (hc : c ∈ schema) :
    c ≠ 58 ∧ c ≠ 47 := by
  have hchar := List.all_eq_true.mp (Bool.and_eq_true_iff.mp h).2 c hc
  constructor <;> rintro rfl <;> revert hchar <;> decide

theorem cutAt_scheme (h : isScheme schema = true) (rest : Bytes) :
    cutAt [47, 58] (schema ++ 58 :: rest) = (schema, 58 :: rest) := by
  have hne : ∀ c ∈ schema, decide (c ∉ ([47, 58] : Bytes)) = true := by
    intro c hc
    simp [ne_of_isScheme h hc]
  rw [cutAt, List.takeWhile_append_of_pos hne, List.dropWhile_append_of_pos hne]
  simp

/-- What is accepted starts with a scheme. -/
theorem exists_scheme (h0 : 0 ∉ s) (h : parseFrom s = (true, u)) :
    ∃ schema rest, s = schema ++ 58 :: rest ∧ isScheme schema = true ∧
      parseRest (ofScheme schema) rest = (true, u) := by
  by_cases hcolon : (cutAt [47, 58] s).2.head? = some 58
  · obtain ⟨rest, hrest⟩ := List.head?_eq_some_iff.mp hcolon
    have hcut : cutAt [47, 58] s = ((cutAt [47, 58] s).1, 58 :: rest) := by rw [← hrest]
    rw [parseFrom_of_colon h0 hcut] at h
    split_ifs at h with hscheme
    · exact ⟨_, rest, by rw [← hrest, cutAt_append], hscheme, h⟩
    · cases h
  · rw [parseFrom_of_ne h0 hcolon] at h
    cases h

theorem parseFrom_scheme (hschema : isScheme schema = true) (h0 : 0 ∉ schema ++ 58 :: rest) :
    parseFrom (schema ++ 58 :: rest) = parseRest (ofScheme schema) rest := by
  rw [parseFrom_of_colon h0 (cutAt_scheme hschema rest), if_pos hschema]

/-- What is behind a cut starts with one of its characters. -/
theorem head_of_cutAt {stops s : Bytes} {c : UInt8} (hc : c ∈ (cutAt stops s).2.head?) :
    c ∈ stops := by
  obtain ⟨t, ht⟩ := List.head?_eq_some_iff.mp hc
  exact head_cutAt ht

/-- A cut where the characters end. -/
theorem cutAt_of_forall {stops x t : Bytes} (hx : ∀ c ∈ x, c ∉ stops)
    (ht : ∀ c ∈ t.head?, c ∈ stops) : cutAt stops (x ++ t) = (x, t) := by
  have hpass : ∀ c ∈ x, decide (c ∉ stops) = true := fun c hc => decide_eq_true (hx c hc)
  rw [cutAt, List.takeWhile_append_of_pos hpass, List.dropWhile_append_of_pos hpass]
  cases t with
  | nil => rw [List.takeWhile_nil, List.dropWhile_nil, List.append_nil]
  | cons c t =>
    have hstop : ¬ decide (c ∉ stops) = true := by
      rw [decide_eq_true_eq, not_not]
      exact ht c rfl
    simp only [List.takeWhile_cons, List.dropWhile_cons, if_neg hstop, List.append_nil]

/-- The members behind an authority. -/
def withAuthority (u : Uri) (a : Bytes) : Uri :=
  { u with
    host := (splitUinfo (splitPort a).1).2
    port := (splitPort a).2
    uinfo := (splitUinfo (splitPort a).1).1 }

/-- What is accepted up to the end of an authority. -/
theorem parseFrom_authority (hschema : isScheme schema = true)
    (h0 : 0 ∉ schema ++ 58 :: 47 :: 47 :: (a ++ tail)) (ha : ∀ c ∈ a, c ∉ ([47, 63, 35] : Bytes))
    (htail : ∀ c ∈ tail.head?, c ∈ ([47, 63, 35] : Bytes)) :
    parseFrom (schema ++ 58 :: 47 :: 47 :: (a ++ tail)) =
      if a.all isAuthorityCharacter then parsePath ((ofScheme schema).withAuthority a) tail
      else (false, ofScheme schema) := by
  rw [parseFrom_scheme hschema h0, parseRest_slashes, cutAt_of_forall ha htail]
  rfl

/-- A path, a query or a fragment may start what is behind an authority. -/
theorem passed_of_head (htail : ∀ c ∈ tail.head?, c ∈ ([47, 63, 35] : Bytes)) :
    ∀ c ∈ tail.head?, isPathCharacter c = true ∨ c = 63 ∨ c = 35 := by
  intro c hc
  obtain rfl | hc := List.mem_cons.mp (htail c hc)
  · exact .inl rfl
  · exact .inr (by simpa using hc)

/-- Without a path that is passed over, and with an `@` in front of the host only, what is accepted
is put together again. -/
theorem recomposed_of_plain (h0 : 0 ∉ s) (h : parseFrom s = (true, u))
    (hpassed : ∀ scheme rest, s = scheme ++ 58 :: rest → isScheme scheme = true →
      ∀ c ∈ rest.head?, isPathCharacter c = true ∨ c = 63 ∨ c = 35)
    (hhost : 64 ∉ u.host) : Recomposed s u := by
  obtain ⟨schema, rest, rfl, hschema, hparse⟩ := exists_scheme h0 h
  have hscheme : ∀ c ∈ schema, c ≠ 58 ∧ c ≠ 47 := fun c hc => ne_of_isScheme hschema hc
  by_cases hslashes : [47, 47] <+: rest
  · obtain ⟨t, rfl⟩ := hslashes
    rw [show [47, 47] ++ t = 47 :: 47 :: t from rfl, parseRest_slashes] at hparse
    split_ifs at hparse
    · obtain ⟨authority, ha, huinfo, hhost', hport, hdigits, -, hcolon, -⟩ :=
        exists_authority (cutAt [47, 63, 35] t).1
      rw [huinfo, hhost', hport] at hparse
      obtain ⟨path, query, fragment, htail, hpath, hquery, rfl⟩ := parsePath_true rfl rfl rfl
        (passed_of_head fun c hc => head_of_cutAt hc) hparse
      have hchars : ∀ c ∈ authority.text, c ≠ 47 ∧ c ≠ 63 ∧ c ≠ 35 := by
        intro c hc
        rw [← ha] at hc
        simpa using notMem_cutAt hc
      refine ⟨⟨⟨schema, some authority, path, query, fragment⟩, ?_,
        ⟨rfl, rfl, rfl, rfl, rfl, rfl, rfl⟩, ⟨hscheme, ?_, ?_, ?_, hpath, hquery⟩⟩, hdigits, hhost,
        ?_⟩
      · have htext : t = authority.text ++ (path ++
            (query.elim [] (63 :: ·) ++ fragment.elim [] (35 :: ·))) := by
          rw [← ha, ← htail, cutAt_append]
        exact congrArg (fun t => schema ++ 58 :: 47 :: 47 :: t) htext
      · intro hnone
        cases hnone
      · intro a ha c hc
        cases ha
        exact hchars c hc
      · intro a ha
        cases ha
        exact hcolon
      · intro hmem
        refine (hchars 47 ?_).1 rfl
        rw [Authority.text, Authority.front]
        exact List.mem_append_left _ (List.mem_append_right _ hmem)
    · cases hparse
  · rw [parseRest_of_not _ hslashes] at hparse
    obtain ⟨path, query, fragment, rfl, hpath, hquery, rfl⟩ := parsePath_true rfl rfl rfl
      (hpassed schema rest rfl hschema) hparse
    refine ⟨⟨⟨schema, none, path, query, fragment⟩, rfl, ⟨rfl, rfl, rfl, rfl, rfl, rfl, rfl⟩,
      ⟨hscheme, fun _ => hslashes, ?_, ?_, hpath, hquery⟩⟩, rfl, hhost, List.not_mem_nil⟩
    · intro a ha
      cases ha
    · intro a ha
      cases ha

theorem parseFragment_fst (hs : ∀ c ∈ s.head?, c ∈ ([35] : Bytes)) :
    (parseFragment u s).1 = s.tail.all isQueryCharacter := by
  cases s with
  | nil => rfl
  | cons c s =>
    obtain rfl : c = 35 := by simpa using hs c rfl
    rw [parseFragment_cons, List.tail_cons]
    cases s.all isQueryCharacter <;> rfl

theorem parseQueryPart_fst (hs : ∀ c ∈ s.head?, c ∈ ([63, 35] : Bytes)) :
    (parseQueryPart u s).1 = isLegalQuery s := by
  by_cases hmark : s.head? = some 63
  · obtain ⟨s, rfl⟩ := List.head?_eq_some_iff.mp hmark
    rw [parseQueryPart_cons, isLegalQuery]
    cases (cutAt [35] s).1.all isQueryCharacter with
    | true =>
      rw [if_pos rfl, Bool.true_and]
      exact parseFragment_fst fun c hc => head_of_cutAt hc
    | false => rfl
  · have hlegal : isLegalQuery s = s.tail.all isQueryCharacter := by
      unfold isLegalQuery
      split
      · exact absurd rfl hmark
      · rfl
    rw [parseQueryPart_of_ne u hmark, hlegal]
    apply parseFragment_fst
    intro c hc
    obtain rfl | hc' := List.mem_cons.mp (hs c hc)
    · exact absurd hc hmark
    · exact hc'

/-- The tails that are parsed, behind an authority. -/
theorem parsePath_fst (hs : ∀ c ∈ s.head?, c ∈ ([47, 63, 35] : Bytes)) :
    (parsePath u s).1 = isLegalTail s := by
  cases s with
  | nil => rfl
  | cons c s =>
    rw [parsePath_cons, isLegalTail]
    obtain rfl | hc := List.mem_cons.mp (hs c rfl)
    · rw [if_pos (show isPathCharacter 47 = true from rfl)]
      cases (cutAt [63, 35] (47 :: s)).1.all isPathCharacter with
      | true =>
        rw [if_pos rfl, Bool.true_and]
        exact parseQueryPart_fst fun c hc => head_of_cutAt hc
      | false => rfl
    · have hnot : ¬ isPathCharacter c = true := by
        obtain rfl | rfl : c = 63 ∨ c = 35 := by simpa using hc
        all_goals decide
      have hcut : cutAt [63, 35] (c :: s) = ([], c :: s) := by
        have hstop : ¬ decide (c ∉ ([63, 35] : Bytes)) = true := by
          rw [decide_eq_true_eq, not_not]
          exact hc
        rw [cutAt]
        simp only [List.takeWhile_cons, List.dropWhile_cons, if_neg hstop]
      rw [if_neg hnot, hcut, List.all_nil, Bool.true_and]
      apply parseQueryPart_fst
      intro d hd
      rw [List.head?_cons, Option.mem_some_iff] at hd
      rwa [← hd]

/-- What is put together again had nothing that is passed over. -/
theorem passed_of_recomposed (h0 : 0 ∉ schema ++ 58 :: rest) (hschema : isScheme schema = true)
    (h : ∀ u, parseFrom (schema ++ 58 :: rest) = (true, u) → Recomposed (schema ++ 58 :: rest) u) :
    ∀ c ∈ rest.head?, isPathCharacter c = true ∨ c = 63 ∨ c = 35 := by
  intro c hc
  obtain ⟨t, rfl⟩ := List.head?_eq_some_iff.mp hc
  by_contra hnot
  rw [not_or, not_or] at hnot
  obtain ⟨hpath, hquery, hfragment⟩ := hnot
  have hslashes : ¬ [47, 47] <+: c :: t := by
    rintro ⟨t', ht'⟩
    cases ht'
    exact hpath rfl
  -- the text is accepted with its scheme alone
  have haccepted : parseFrom (schema ++ 58 :: c :: t) = (true, ofScheme schema) := by
    rw [parseFrom_scheme hschema h0, parseRest_of_not _ hslashes, parsePath_cons, if_neg hpath,
      parseQueryPart_of_ne _ (by simpa using hquery),
      parseFragment_of_ne _ (by simpa using hfragment)]
  obtain ⟨⟨parts, htext, hstored, -⟩, -⟩ := h _ haccepted
  have hrest : c :: t = parts.rest := by
    have hscheme : schema = parts.scheme := hstored.schema
    rw [UriParts.text, ← hscheme] at htext
    exact List.cons_injective (List.append_cancel_left htext)
  have hempty : parts.path = [] := hstored.path.symm
  rw [UriParts.rest, UriParts.tail, hempty, List.nil_append] at hrest
  cases hauthority : parts.authority with
  | some a =>
    rw [hauthority] at hrest
    cases hrest
    exact hpath rfl
  | none =>
    rw [hauthority] at hrest
    cases hq : parts.query with
    | some q =>
      rw [hq] at hrest
      cases hrest
      exact hquery rfl
    | none =>
      rw [hq] at hrest
      cases hf : parts.fragment with
      | some f =>
        rw [hf] at hrest
        cases hrest
        exact hfragment rfl
      | none =>
        rw [hf] at hrest
        cases hrest

/-- Where there is one `@` only, it is in one place. -/
theorem eq_of_append_at {x y w r : Bytes} (h : w ++ 64 :: r = x ++ 64 :: y) (hw : 64 ∉ w)
    (hr : 64 ∉ r) : x = w := by
  obtain ⟨z, rfl, hz⟩ | ⟨z, rfl, hz⟩ := List.append_eq_append_iff.mp h
  · cases z with
    | nil => rw [List.append_nil]
    | cons d z =>
      cases hz
      exact absurd (List.mem_append_right z List.mem_cons_self) hr
  · cases z with
    | nil => rw [List.append_nil]
    | cons d z =>
      cases hz
      exact absurd (List.mem_append_right x List.mem_cons_self) hw

theorem at_notMem_of_all {x : Bytes} {p : UInt8 → Bool} (h : x.all p = true) (hp : p 64 = false) :
    64 ∉ x := by
  intro hmem
  rw [List.all_eq_true.mp h 64 hmem] at hp
  cases hp

/-- In the host there is no `@` just if every `@` of the authority has user info in front of it. -/
theorem notMem_host_iff (a : Bytes) : 64 ∉ (splitUinfo (splitPort a).1).2 ↔
    ∀ x y, a = x ++ 64 :: y → x.all isUserInfoCharacter = true := by
  obtain ⟨⟨uinfo, host, port⟩, ha, -, hhost, -, hdigits, huinfo, -, hat⟩ := exists_authority a
  rw [hhost]
  rw [Authority.text, Authority.front] at ha
  dsimp only at ha hdigits huinfo hat ⊢
  have hport : 64 ∉ port.elim [] (58 :: ·) := by
    cases port with
    | none => exact List.not_mem_nil
    | some d => simpa using at_notMem_of_all hdigits rfl
  constructor
  · intro hno x y hxy
    have htail : 64 ∉ host ++ port.elim [] (58 :: ·) := by
      rw [List.mem_append]
      exact not_or_intro hno hport
    cases uinfo with
    | none =>
      rw [hxy, Option.elim_none, List.nil_append] at ha
      exact absurd (ha ▸ List.mem_append_right x List.mem_cons_self) htail
    | some w =>
      rw [hxy, Option.elim_some, List.append_assoc, List.append_assoc, List.singleton_append] at ha
      rw [eq_of_append_at ha.symm (at_notMem_of_all huinfo rfl) htail]
      exact huinfo
  · intro hall hmem
    obtain ⟨p, q, rfl⟩ := List.append_of_mem hmem
    cases uinfo with
    | none =>
      refine hat rfl p q rfl (hall p (q ++ port.elim [] (58 :: ·)) ?_)
      rw [ha, Option.elim_none, List.nil_append, List.append_assoc, List.cons_append]
    | some w =>
      have huser := hall (w ++ 64 :: p) (q ++ port.elim [] (58 :: ·)) (by rw [ha]; simp)
      exact at_notMem_of_all huser rfl (List.mem_append_right w List.mem_cons_self)

end Accepted

/-! ### Characters of the grammar -/

section Grammar

variable {s : Bytes} {c : UInt8} {p q : UInt8 → Bool}

/-- The characters of a host. -/
def isHostCharacter (c : UInt8) : Bool := isUnreserved c || isGenericDelim c || c ∈ ascii "%:[]"

/-- The characters of a registered name. -/
def isNameCharacter (c : UInt8) : Bool := isUnreserved c || isGenericDelim c || c = 37

/-- The characters of an address between brackets. -/
def isAddressCharacter (c : UInt8) : Bool := isHexDigit c || c = 58 || c = 46

/-- What holds of each character, as one sees by looking at all of them. -/
@[mk_iff]
structure CharacterSpec (c : UInt8) : Prop where
  name : c = 37 ∨ isHexDigit c = true ∨ (isUnreserved c || isGenericDelim c) = true →
    isNameCharacter c = true
  userInfo : c = 37 ∨ isHexDigit c = true ∨
      (isUnreserved c || isGenericDelim c || c = 58) = true →
    isUserInfoCharacter c = true ∧ c ∉ ([47, 63, 35] : Bytes) ∧ isAuthorityCharacter c = true
  path : c = 37 ∨ isHexDigit c = true ∨ (isPchar c || c = 47) = true → isPathCharacter c = true
  query : c = 37 ∨ isHexDigit c = true ∨ (isPchar c || c = 47 || c = 63) = true →
    isQueryCharacter c = true
  pathEnd : isPathCharacter c = true → c ∉ ([63, 35] : Bytes)
  hostName : isNameCharacter c = true → isHostCharacter c = true ∧ c ≠ 58
  hostDotted : isDecimal c = true ∨ c = 46 →
    isHostCharacter c = true ∧ c ≠ 58 ∧ isAddressCharacter c = true
  hostAddress : isAddressCharacter c = true → isHostCharacter c = true
  host : isHostCharacter c = true → c ∉ ([47, 63, 35] : Bytes) ∧ isAuthorityCharacter c = true
  digit : isDecimal c = true → c ∉ ([47, 63, 35] : Bytes) ∧ isAuthorityCharacter c = true ∧
    c ≠ 93 ∧ c ≠ 64
  letter : isAlpha (toLower c) = true → isAlpha c = true

set_option synthInstance.maxSize 512 in
instance : DecidablePred CharacterSpec := fun c => decidable_of_iff _ (characterSpec_iff c).symm

theorem character_spec (c : UInt8) : CharacterSpec c := by
  have key : ∀ n < 256, CharacterSpec (.ofNat n) := by decide +kernel
  have hc := key c.toNat c.toNat_lt
  rwa [UInt8.ofNat_toNat] at hc

/-- Percent-encoded characters are a percent sign and digits. -/
theorem all_of_isEncoded (hq : ∀ c, c = 37 ∨ isHexDigit c = true ∨ p c = true → q c = true)
    (h : isEncoded p s = true) : s.all q = true := by
  fun_induction isEncoded p s with
  | case1 a b s ih =>
    rw [Bool.and_eq_true, Bool.and_eq_true] at h
    obtain ⟨⟨ha, hb⟩, hs⟩ := h
    rw [List.all_cons, List.all_cons, List.all_cons, ih hs, hq 37 (.inl rfl), hq a (.inr (.inl ha)),
      hq b (.inr (.inl hb))]
    rfl
  | case2 c s _ ih =>
    rw [Bool.and_eq_true, Bool.and_eq_true] at h
    obtain ⟨⟨-, hc⟩, hs⟩ := h
    rw [List.all_cons, ih hs, hq c (.inr (.inr hc))]
    rfl
  | case3 => rfl

theorem all_isNameCharacter (h : isRegName s = true) : s.all isNameCharacter = true :=
  all_of_isEncoded (fun c => (character_spec c).name) h

theorem all_isDecimal_of_isOctet (h : IsOctet s) : s.all isDecimal = true := by
  obtain ⟨n, -, rfl⟩ := h
  have htext : (toString n).toList = Nat.toDigits 10 n := by
    rw [Nat.toString_eq_repr, Nat.repr, String.toList_ofList]
  rw [ascii, htext, List.all_eq_true]
  intro b hb
  obtain ⟨d, hd, rfl⟩ := List.mem_map.mp hb
  exact (isDigit_toUInt8 (Nat.isDigit_of_mem_toDigits (by decide) (by decide) hd)).1

/-- The characters of a dotted address. -/
theorem mem_of_isIPv4 (h : IsIPv4 s) (hc : c ∈ s) : isDecimal c = true ∨ c = 46 := by
  obtain ⟨w, x, y, z, hw, hx, hy, hz, rfl⟩ := h
  have digit : ∀ {t : Bytes}, IsOctet t → c ∈ t → isDecimal c = true := fun ht hmem =>
    List.all_eq_true.mp (all_isDecimal_of_isOctet ht) c hmem
  simp only [List.mem_append, List.mem_cons] at hc
  obtain hc | hc | hc | hc | hc | hc | hc := hc
  · exact .inl (digit hw hc)
  · exact .inr hc
  · exact .inl (digit hx hc)
  · exact .inr hc
  · exact .inl (digit hy hc)
  · exact .inr hc
  · exact .inl (digit hz hc)

theorem mem_of_mem_intercalate {l : List Bytes} (hc : c ∈ [58].intercalate l) :
    c = 58 ∨ ∃ g ∈ l, c ∈ g := by
  induction l with
  | nil => cases hc
  | cons g l ih =>
    cases l with
    | nil =>
      rw [List.intercalate_singleton] at hc
      exact .inr ⟨g, List.mem_cons_self, hc⟩
    | cons g' l =>
      rw [List.intercalate_cons_cons, List.mem_append, List.mem_append, List.mem_singleton] at hc
      obtain (hc | hc) | hc := hc
      · exact .inr ⟨g, List.mem_cons_self, hc⟩
      · exact .inl hc
      · exact (ih hc).imp_right fun ⟨g, hg, hmem⟩ => ⟨g, List.mem_cons_of_mem _ hg, hmem⟩

theorem mem_of_groups {g : Groups} (h : g.WellFormed) (hc : c ∈ g.text) :
    isAddressCharacter c = true := by
  obtain rfl | ⟨t, ht, hmem⟩ := mem_of_mem_intercalate hc
  · rfl
  · obtain ht | ht := List.mem_append.mp ht
    · have hhex := (Bool.and_eq_true_iff.mp (Bool.and_eq_true_iff.mp (h.1 t ht)).1).1
      rw [isAddressCharacter, List.all_eq_true.mp hhex c hmem]
      rfl
    · have hdotted := mem_of_isIPv4 (h.2 t (Option.mem_toList.mp ht)) hmem
      exact ((character_spec c).hostDotted hdotted).2.2

theorem mem_of_isIPv6 (h : IsIPv6 s) (hc : c ∈ s) : isAddressCharacter c = true := by
  obtain ⟨g, hg, -, rfl⟩ | ⟨before, after, -, hbefore, hafter, -, rfl⟩ := h
  · exact mem_of_groups hg hc
  · rw [List.mem_append, List.mem_cons, List.mem_cons] at hc
    obtain hc | rfl | rfl | hc := hc
    · exact mem_of_groups hbefore hc
    · rfl
    · rfl
    · exact mem_of_groups hafter hc

/-- A colon is in a host between brackets only. -/
theorem host_spec (h : IsHost s) : s.all isHostCharacter = true ∧
    (58 ∉ s ∨ s.getLast? = some 93) := by
  cases h with
  | regName h =>
    have hall := List.all_eq_true.mp (all_isNameCharacter h)
    exact ⟨List.all_eq_true.mpr fun c hc => ((character_spec c).hostName (hall c hc)).1,
      .inl fun hmem => ((character_spec 58).hostName (hall 58 hmem)).2 rfl⟩
  | ipv4 h =>
    exact ⟨List.all_eq_true.mpr fun c hc => ((character_spec c).hostDotted (mem_of_isIPv4 h hc)).1,
      .inl fun hmem => ((character_spec 58).hostDotted (mem_of_isIPv4 h hmem)).2.1 rfl⟩
  | ipv6 h =>
    refine ⟨List.all_eq_true.mpr fun c hc => ?_, .inr ?_⟩
    · rw [List.mem_cons, List.mem_append, List.mem_singleton] at hc
      obtain rfl | hc | rfl := hc
      · rfl
      · exact (character_spec c).hostAddress (mem_of_isIPv6 h hc)
      · rfl
    · rw [← List.cons_append, List.getLast?_concat]

end Grammar

/-! ### URIs of the grammar -/

section Generic

variable {u : Uri} {parts : UriParts} {a : Authority}

theorem queryText_spec {q : Bytes} (h : isQueryText q = true) :
    q.all isQueryCharacter = true ∧ 35 ∉ q := by
  have hall : q.all isQueryCharacter = true :=
    all_of_isEncoded (fun c => (character_spec c).query) h
  exact ⟨hall, fun hmem => by cases List.all_eq_true.mp hall 35 hmem⟩

theorem path_spec {path : Bytes} (h : isPathAbempty path = true) :
    path.all isPathCharacter = true ∧ (∀ c ∈ path, c ∉ ([63, 35] : Bytes)) ∧
      ∀ c ∈ path.head?, c = 47 := by
  obtain ⟨hhead, hchars⟩ := Bool.and_eq_true_iff.mp h
  have hall : path.all isPathCharacter = true :=
    all_of_isEncoded (fun c => (character_spec c).path) hchars
  refine ⟨hall, fun c hc => (character_spec c).pathEnd (List.all_eq_true.mp hall c hc),
    fun c hc => ?_⟩
  obtain hnil | hslash := Bool.or_eq_true_iff.mp hhead
  · rw [of_decide_eq_true hnil] at hc
    cases hc
  · rw [of_decide_eq_true hslash, Option.mem_some_iff] at hc
    exact hc.symm

theorem parseFragment_generic {fragment : Option Bytes} (hu : u.fragment = [])
    (h : ∀ f ∈ fragment, isQueryText f = true) :
    parseFragment u (fragment.elim [] (35 :: ·)) =
      (true, { u with fragment := fragment.getD [] }) := by
  cases fragment with
  | none =>
    rw [Option.elim_none, parseFragment_of_ne u (by simp), Option.getD_none, ← hu]
  | some f => rw [Option.elim_some, parseFragment_cons, if_pos (queryText_spec (h f rfl)).1,
      Option.getD_some]

theorem head_tail (query fragment : Option Bytes) :
    ∀ c ∈ (query.elim [] (63 :: ·) ++ fragment.elim [] (35 :: ·)).head?,
      c ∈ ([63, 35] : Bytes) := by
  intro c hc
  cases query with
  | some q =>
    cases hc
    decide
  | none =>
    cases fragment with
    | some f =>
      cases hc
      decide
    | none => cases hc

theorem parseQueryPart_generic {query fragment : Option Bytes} (hquery : u.query = [])
    (hu : u.fragment = []) (hq : ∀ q ∈ query, isQueryText q = true)
    (hf : ∀ f ∈ fragment, isQueryText f = true) :
    parseQueryPart u (query.elim [] (63 :: ·) ++ fragment.elim [] (35 :: ·)) =
      (true, { u with query := query.getD [], fragment := fragment.getD [] }) := by
  cases query with
  | none =>
    have hmark : (fragment.elim [] (35 :: ·)).head? ≠ some 63 := by
      cases fragment <;> simp
    rw [Option.elim_none, List.nil_append, parseQueryPart_of_ne u hmark,
      parseFragment_generic hu hf, Option.getD_none, ← hquery]
  | some q =>
    obtain ⟨hall, hne⟩ := queryText_spec (hq q rfl)
    have hcut : cutAt [35] (q ++ fragment.elim [] (35 :: ·)) =
        (q, fragment.elim [] (35 :: ·)) := by
      apply cutAt_of_forall
      · intro c hc hmem
        rw [List.mem_singleton] at hmem
        exact hne (hmem ▸ hc)
      · intro c hc
        cases fragment <;> cases hc
        exact List.mem_singleton_self _
    rw [Option.elim_some, List.cons_append, parseQueryPart_cons, hcut, if_pos hall]
    exact parseFragment_generic hu hf

theorem parsePath_generic {path : Bytes} {query fragment : Option Bytes} (hpath : u.path = [])
    (hquery : u.query = []) (hu : u.fragment = []) (hp : isPathAbempty path = true)
    (hq : ∀ q ∈ query, isQueryText q = true) (hf : ∀ f ∈ fragment, isQueryText f = true) :
    parsePath u (path ++ (query.elim [] (63 :: ·) ++ fragment.elim [] (35 :: ·))) =
      (true, { u with path := path, query := query.getD [], fragment := fragment.getD [] }) := by
  obtain ⟨hall, hne, hhead⟩ := path_spec hp
  have hmark := head_tail query fragment
  have hparse : ∀ u : Uri, u.query = [] → u.fragment = [] →
      parseQueryPart u (query.elim [] (63 :: ·) ++ fragment.elim [] (35 :: ·)) =
        (true, { u with query := query.getD [], fragment := fragment.getD [] }) :=
    fun u hquery hu => parseQueryPart_generic hquery hu hq hf
  generalize query.elim [] (63 :: ·) ++ fragment.elim [] (35 :: ·) = tail at hmark hparse ⊢
  cases path with
  | nil =>
    rw [List.nil_append]
    have hskip : parsePath u tail = parseQueryPart u tail := by
      cases tail with
      | nil => rfl
      | cons c tail =>
        have hnot : ¬ isPathCharacter c = true := by
          obtain rfl | rfl : c = 63 ∨ c = 35 := by simpa using hmark c rfl
          all_goals decide
        rw [parsePath_cons, if_neg hnot]
    rw [hskip, hparse u hquery hu, ← hpath]
  | cons c path =>
    obtain rfl := hhead c rfl
    have hcut : cutAt [63, 35] (47 :: path ++ tail) = (47 :: path, tail) :=
      cutAt_of_forall hne hmark
    rw [List.cons_append] at hcut ⊢
    rw [parsePath_cons, if_pos (show isPathCharacter 47 = true from rfl), hcut, if_pos hall]
    exact hparse _ hquery hu

/-- The characters of an authority are those that `parse_from` takes. -/
theorem authority_spec (h : UriParts.Generic parts a) :
    (a.uinfo.getD []).all isUserInfoCharacter = true ∧
      (∀ c ∈ a.text, c ∉ ([47, 63, 35] : Bytes)) ∧ a.text.all isAuthorityCharacter = true := by
  have hencoded : ∀ uinfo ∈ a.uinfo, uinfo.all isUserInfoCharacter = true := fun uinfo huinfo =>
    all_of_isEncoded (fun c hc => ((character_spec c).userInfo hc).1) (h.uinfo uinfo huinfo)
  have huser : ∀ uinfo ∈ a.uinfo, uinfo.all (fun c =>
      c ∉ ([47, 63, 35] : Bytes) && isAuthorityCharacter c) = true := by
    intro uinfo huinfo
    apply all_of_isEncoded (fun c hc => ?_) (h.uinfo uinfo huinfo)
    obtain ⟨-, hne, hspec⟩ := (character_spec c).userInfo hc
    rw [hspec, Bool.and_true]
    exact decide_eq_true hne
  have hchar : ∀ c ∈ a.text, c ∉ ([47, 63, 35] : Bytes) ∧ isAuthorityCharacter c = true := by
    intro c hc
    rw [Authority.text] at hc
    obtain hfront | hport := List.mem_append.mp hc
    · obtain hinfo | hmem := List.mem_append.mp hfront
      · cases hu : a.uinfo with
        | none =>
          rw [hu] at hinfo
          cases hinfo
        | some uinfo =>
          rw [hu, Option.elim_some, List.mem_append, List.mem_singleton] at hinfo
          obtain hinfo | rfl := hinfo
          · have hspec := List.all_eq_true.mp (huser uinfo hu) c hinfo
            rwa [Bool.and_eq_true, decide_eq_true_eq] at hspec
          · exact ⟨by decide, rfl⟩
      · exact (character_spec c).host (List.all_eq_true.mp (host_spec h.host).1 c hmem)
    · cases hp : a.port with
      | none =>
        rw [hp] at hport
        cases hport
      | some port =>
        rw [hp, Option.elim_some, List.mem_cons] at hport
        obtain rfl | hmem := hport
        · exact ⟨by decide, rfl⟩
        · obtain ⟨hne, hspec, -⟩ :=
            (character_spec c).digit (List.all_eq_true.mp (h.port port hp) c hmem)
          exact ⟨hne, hspec⟩
  refine ⟨?_, fun c hc => (hchar c hc).1, List.all_eq_true.mpr fun c hc => (hchar c hc).2⟩
  cases hu : a.uinfo with
  | none => rfl
  | some uinfo => exact hencoded uinfo hu

/-- The port of an authority of the grammar. -/
theorem splitPort_generic (h : UriParts.Generic parts a) :
    splitPort a.text = (a.front, a.port.getD []) := by
  rw [Authority.text]
  cases hp : a.port with
  | some port =>
    rw [Option.elim_some, splitPort_append _ (h.port port hp)]
    rfl
  | none =>
    rw [Option.elim_none, List.append_nil]
    apply splitPort_of_forall
    intro x d hfront hd
    have hend : ∀ (y e : Bytes) (c : UInt8), e.all isDecimal = true →
        (y ++ 58 :: e).getLast? = some c → c ≠ 93 ∧ c ≠ 64 := by
      intro y e c he hlast
      rw [List.getLast?_append_of_ne_nil y (List.cons_ne_nil 58 e)] at hlast
      obtain rfl | hmem := List.mem_cons.mp (List.mem_of_getLast? hlast)
      · decide
      · exact ((character_spec c).digit (List.all_eq_true.mp he c hmem)).2.2
    -- the colon is not in the host, whose last character would be a bracket
    have hhost : ∀ y, a.host ≠ y ++ 58 :: d := by
      intro y hy
      obtain hno | hlast := (host_spec h.host).2
      · rw [hy] at hno
        exact hno (List.mem_append_right y List.mem_cons_self)
      · rw [hy] at hlast
        exact (hend y d 93 hd hlast).1 rfl
    rw [Authority.front] at hfront
    obtain ⟨z, -, hz⟩ | ⟨z, hz, hdigits⟩ := List.append_eq_append_iff.mp hfront
    · exact hhost z hz
    · cases z with
      | nil => exact hhost [] hdigits.symm
      | cons c z =>
        -- it is not in front of the host, where an `@` is the last one
        rw [List.cons_append, List.cons.injEq] at hdigits
        obtain ⟨rfl, rfl⟩ := hdigits
        have hzd : z.all isDecimal = true := by
          rw [List.all_append] at hd
          exact (Bool.and_eq_true_iff.mp hd).1
        cases hu : a.uinfo with
        | none =>
          rw [hu, Option.elim_none] at hz
          exact List.append_ne_nil_of_right_ne_nil x (List.cons_ne_nil 58 z) hz.symm
        | some w =>
          rw [hu, Option.elim_some] at hz
          exact (hend x z 64 hzd (by rw [← hz, List.getLast?_concat])).2 rfl

theorem splitUinfo_generic (h : UriParts.Generic parts a) :
    splitUinfo a.front = (a.uinfo.getD [], a.host) := by
  rw [Authority.front]
  have hinfo := (authority_spec h).1
  cases hu : a.uinfo with
  | some uinfo =>
    rw [hu] at hinfo
    rw [Option.elim_some, List.append_assoc, List.singleton_append]
    exact splitUinfo_append hinfo a.host
  | none =>
    rw [Option.elim_none, List.nil_append]
    apply splitUinfo_of_forall
    intro x y hhost hx
    have hmem : 64 ∈ a.host := by
      rw [hhost]
      exact List.mem_append_right x List.mem_cons_self
    exact at_notMem_of_all (host_spec h.host).1 rfl hmem

theorem isScheme_of_isWebScheme {schema : Bytes} (h : IsWebScheme schema) :
    isScheme schema = true := by
  have hweb : (schema.map toLower).all isAlpha = true ∧ schema.map toLower ≠ [] := by
    have key : ∀ w ∈ [ascii "http", ascii "https", ascii "ws", ascii "wss"],
        w.all isAlpha = true ∧ w ≠ [] := by decide
    exact key _ h
  rw [List.all_map] at hweb
  have hall : ∀ c ∈ schema, isAlpha c = true := fun c hc =>
    (character_spec c).letter (List.all_eq_true.mp hweb.1 c hc)
  cases schema with
  | nil => exact absurd rfl hweb.2
  | cons c schema =>
    rw [isScheme, List.head?_cons, Option.any_some, hall c List.mem_cons_self, Bool.true_and,
      List.all_eq_true]
    intro d hd
    rw [isSchemeCharacter, hall d hd, Bool.true_or, Bool.true_or]

/-- A URI of the grammar is read up to its authority. -/
theorem parseFrom_generic (h : UriParts.Generic parts a) (h0 : 0 ∉ parts.text) :
    parseFrom parts.text =
      if a.text.all isAuthorityCharacter then
        parsePath
          { ofScheme parts.scheme with
            host := a.host, port := a.port.getD [], uinfo := a.uinfo.getD [] }
          (parts.path ++ parts.tail)
      else (false, ofScheme parts.scheme) := by
  have hrest : parts.rest = 47 :: 47 :: (a.text ++ (parts.path ++ parts.tail)) := by
    rw [UriParts.rest, h.authority]
    rfl
  have hhead : ∀ c ∈ (parts.path ++ parts.tail).head?, c ∈ ([47, 63, 35] : Bytes) := by
    intro c hc
    cases hpath : parts.path with
    | nil =>
      rw [hpath] at hc
      exact List.mem_cons_of_mem 47 (head_tail _ _ c hc)
    | cons d path =>
      have hslash := (path_spec h.path).2.2
      rw [hpath] at hslash
      rw [hpath, List.cons_append, List.head?_cons, Option.mem_some_iff] at hc
      rw [← hc, hslash d rfl]
      exact List.mem_cons_self
  rw [UriParts.text, hrest] at h0 ⊢
  rw [parseFrom_authority (isScheme_of_isWebScheme h.scheme) h0 (authority_spec h).2.1 hhead,
    withAuthority, splitPort_generic h, splitUinfo_generic h]

/-- The members are the components. -/
theorem stored_of_generic (h : UriParts.Generic parts a) (h0 : 0 ∉ parts.text) :
    ∃ u, parseFrom parts.text = (true, u) ∧ parts.Stored u := by
  have hparse : parsePath
      { ofScheme parts.scheme with
        host := a.host, port := a.port.getD [], uinfo := a.uinfo.getD [] }
      (parts.path ++ parts.tail) = _ :=
    parsePath_generic rfl rfl rfl h.path h.query h.fragment
  refine ⟨_, (parseFrom_generic h h0).trans ((if_pos (authority_spec h).2.2).trans hparse),
    ⟨rfl, ?_, ?_, ?_, rfl, rfl, rfl⟩⟩
  · rw [h.authority]
    rfl
  · rw [h.authority]
    rfl
  · rw [h.authority]
    rfl

end Generic

/-! ### The texts that are split right -/

section Splits

variable {s : Bytes}

theorem scan_ok_iff (h0 : 0 ∉ s) {u : Uri} :
    (∃ rest, scan (s ++ [0]) = .ok (u, rest)) ↔ parseFrom s = (true, u) := by
  have hscan := scan_eq h0
  constructor
  · rintro ⟨rest, hok⟩
    rw [hok] at hscan
    cases hparse : parseFrom s with
    | mk accepted v =>
      rw [hparse] at hscan
      cases accepted <;> cases hscan
      rfl
  · intro hparse
    rw [hparse] at hscan
    cases hread : scan (s ++ [0]) with
    | error e =>
      rw [hread] at hscan
      cases hscan
    | ok read =>
      rw [hread] at hscan
      cases hscan
      exact ⟨read.2, rfl⟩

theorem scan_ne_overrun (h0 : 0 ∉ s) : scan (s ++ [0]) ≠ .error .overrun := by
  intro hread
  have hscan := scan_eq h0
  rw [hread] at hscan
  cases hparse : parseFrom s with
  | mk accepted v =>
    rw [hparse] at hscan
    cases accepted <;> cases hscan

/-- The host of a text with an authority. -/
theorem host_of_accepted {schema a tail : Bytes} {u : Uri}
    (htail : ∀ c ∈ tail.head?, c ∈ ([47, 63, 35] : Bytes))
    (h : parsePath ((ofScheme schema).withAuthority a) tail = (true, u)) :
    u.host = (splitUinfo (splitPort a).1).2 := by
  obtain ⟨path, query, fragment, -, -, -, rfl⟩ :=
    parsePath_true rfl rfl rfl (passed_of_head htail) h
  rfl

/-- In a plain text that is accepted, there is no `@` in the host. -/
theorem notMem_host_of_plain (h0 : 0 ∉ s) (h : Plain s) {u : Uri} (hu : parseFrom s = (true, u)) :
    64 ∉ u.host := by
  obtain ⟨schema, rest, rfl, hschema, hparse⟩ := exists_scheme h0 hu
  by_cases hslashes : [47, 47] <+: rest
  · obtain ⟨t, rfl⟩ := hslashes
    have htext : [47, 47] ++ t =
        47 :: 47 :: ((cutAt [47, 63, 35] t).1 ++ (cutAt [47, 63, 35] t).2) := by
      rw [cutAt_append]
      rfl
    have htail : ∀ c ∈ (cutAt [47, 63, 35] t).2.head?, c ∈ ([47, 63, 35] : Bytes) :=
      fun c hc => head_of_cutAt hc
    have hne : ∀ c ∈ (cutAt [47, 63, 35] t).1, c ∉ ([47, 63, 35] : Bytes) :=
      fun c hc => notMem_cutAt hc
    generalize (cutAt [47, 63, 35] t).1 = a at htext hne
    generalize (cutAt [47, 63, 35] t).2 = tail at htext htail
    rw [htext] at h0 h hu
    rw [parseFrom_authority hschema h0 hne htail] at hu
    split_ifs at hu with hall
    · have hlegal : isLegalTail tail = true := by rw [← parsePath_fst htail, hu]
      rw [host_of_accepted htail hu]
      exact (notMem_host_iff a).mpr (h.ats schema a tail rfl hschema hne htail hall hlegal)
    · cases hu
  · rw [parseRest_of_not _ hslashes] at hparse
    obtain ⟨path, query, fragment, -, -, -, rfl⟩ :=
      parsePath_true rfl rfl rfl (h.passed schema rest rfl hschema) hparse
    exact List.not_mem_nil

/-- A text is split right just if it is plain. -/
theorem splitsRight_iff (h0 : 0 ∉ s) : SplitsRight s ↔ Plain s := by
  constructor
  · intro h
    have hrecomposed : ∀ u, parseFrom s = (true, u) → Recomposed s u := by
      intro u hu
      obtain ⟨rest, hrest⟩ := (scan_ok_iff h0).mpr hu
      exact h.recomposed u rest hrest
    constructor
    · rintro scheme rest rfl hscheme
      exact passed_of_recomposed h0 hscheme hrecomposed
    · rintro scheme a tail rfl hscheme ha htail hall hlegal
      -- nothing else is wrong with the text, so it is accepted
      obtain ⟨u, hu⟩ : ∃ u, parsePath ((ofScheme scheme).withAuthority a) tail = (true, u) :=
        ⟨_, Prod.ext ((parsePath_fst htail).trans hlegal) rfl⟩
      have hparse := parseFrom_authority hscheme h0 ha htail
      rw [if_pos hall, hu] at hparse
      have hhost := (hrecomposed u hparse).2.2.1
      rw [host_of_accepted htail hu] at hhost
      exact (notMem_host_iff a).mp hhost
  · intro h
    refine ⟨scan_ne_overrun h0, ?_, ?_⟩
    · intro u rest hscan
      have hparse := (scan_ok_iff h0).mp ⟨rest, hscan⟩
      exact recomposed_of_plain h0 hparse h.passed (notMem_host_of_plain h0 h hparse)
    · rintro parts a hgeneric rfl
      obtain ⟨u, hparse, hstored⟩ := stored_of_generic hgeneric h0
      obtain ⟨rest, hscan⟩ := (scan_ok_iff h0).mpr hparse
      exact ⟨u, rest, hscan, hstored⟩

theorem splitsRight_withPort :
    SplitsRight (ascii "http://u!@a&b:80/p?q#f") ↔ Plain (ascii "http://u!@a&b:80/p?q#f") :=
  splitsRight_iff (by decide)

/-- The host is what stands behind the first `@`. -/
theorem not_splitsRight_at : ¬ SplitsRight (ascii "http://a@b@c/") := by
  intro h
  have hscan : ∃ u rest, scan (ascii "http://a@b@c/" ++ [0]) = .ok (u, rest) ∧ 64 ∈ u.host :=
    ⟨_, _, rfl, by decide⟩
  obtain ⟨u, rest, hscan, hhost⟩ := hscan
  exact (h.recomposed u rest hscan).2.2.1 hhost

end Splits

end Uri

end Yalantinglibs.Cinatra
