import Yalantinglibs.Cinatra.PicoHttpParser

/-!
# URIs

`uri.hpp`. A text is taken apart into the members of `uri_t`; where it is not a URI the members that
were found before stay.

## Main definitions

* `Uri.parseFrom` — the members, and whether the text is a URI

## Main results

* `parseFrom_path` — behind an authority, a path starts with a slash
-/

set_option autoImplicit false

namespace Yalantinglibs.Cinatra

/-- `uri_t`. -/
structure Uri where
  schema : Bytes := []
  uinfo : Bytes := []
  host : Bytes := []
  port : Bytes := []
  path : Bytes := []
  query : Bytes := []
  fragment : Bytes := []
  isSsl : Bool := false
  deriving DecidableEq, Repr

namespace Uri

/-! ### Characters -/

def isAlpha (c : UInt8) : Bool := (65 ≤ c && c ≤ 90) || (97 ≤ c && c ≤ 122)

def isDecimal (c : UInt8) : Bool := 48 ≤ c && c ≤ 57

def isUnreserved (c : UInt8) : Bool := isAlpha c || isDecimal c || c ∈ ascii "-._~"

/-- Among the sub-delimiters there is a bar. -/
def isSubDelim (c : UInt8) : Bool := c ∈ ascii "!$&'|()*+,;="

def isUserInfoCharacter (c : UInt8) : Bool := isUnreserved c || isSubDelim c || c ∈ ascii "%:"

def isPathCharacter (c : UInt8) : Bool := isUnreserved c || isSubDelim c || c ∈ ascii "%/:@"

def isQueryCharacter (c : UInt8) : Bool := isPathCharacter c || c = 63

def isAuthorityCharacter (c : UInt8) : Bool := isUnreserved c || isSubDelim c || c ∈ ascii "%@:[]"

def isSchemeCharacter (c : UInt8) : Bool := isAlpha c || isDecimal c || c ∈ ascii "+-."

/-! ### Parts -/

/-- The text up to the first of some characters, and from there on. -/
def cutAt (stops : Bytes) (s : Bytes) : Bytes × Bytes :=
  (s.takeWhile (· ∉ stops), s.dropWhile (· ∉ stops))

/-- The port is made up of the digits at the end, where a colon is before them. -/
def splitPort (authority : Bytes) : Bytes × Bytes :=
  let digits := (authority.reverse.takeWhile isDecimal).reverse
  let front := authority.take (authority.length - digits.length)
  if front.getLast? = some 58 then (front.dropLast, digits) else (authority, [])

/-- The user info is in front of an `@`. -/
def splitUinfo (host : Bytes) : Bytes × Bytes :=
  let uinfo := host.takeWhile isUserInfoCharacter
  match host.dropWhile isUserInfoCharacter with
  | 64 :: rest => (uinfo, rest)
  | _ => ([], host)

/-- A fragment, if there is one. -/
def parseFragment (u : Uri) : Bytes → Bool × Uri
  | 35 :: s => if s.all isQueryCharacter then (true, { u with fragment := s }) else (false, u)
  | _ => (true, u)

/-- A query, if there is one, and what is behind it. -/
def parseQueryPart (u : Uri) : Bytes → Bool × Uri
  | 63 :: s =>
    let (query, rest) := cutAt [35] s
    if query.all isQueryCharacter then parseFragment { u with query := query } rest else (false, u)
  | s => parseFragment u s

/-- A path, if there is one, and what is behind it. -/
def parsePath (u : Uri) (s : Bytes) : Bool × Uri :=
  match s with
  | [] => (true, u)
  | c :: _ =>
    if isPathCharacter c then
      let (path, rest) := cutAt [63, 35] s
      if path.all isPathCharacter then parseQueryPart { u with path := path } rest else (false, u)
    else parseQueryPart u s

/-- What is behind the scheme. -/
def parseRest (u : Uri) : Bytes → Bool × Uri
  | 47 :: 47 :: s =>
    let (authority, rest) := cutAt [47, 63, 35] s
    if authority.all isAuthorityCharacter then
      let (host, port) := splitPort authority
      let (uinfo, host) := splitUinfo host
      parsePath { u with host := host, port := port, uinfo := uinfo } rest
    else (false, u)
  | s => parsePath u s

/-- `parse_from`, which reads up to a 0. A URI without a scheme is not accepted. -/
def parseFrom (encoded : Bytes) : Bool × Uri :=
  let s := encoded.takeWhile (· ≠ 0)
  let (schema, rest) := cutAt [47, 58] s
  match rest with
  | 58 :: rest =>
    if (schema.head?.any isAlpha) && schema.all isSchemeCharacter then
      parseRest
        { schema := schema, isSsl := schema = ascii "https" || schema = ascii "wss" } rest
    else (false, {})
  | _ => (false, {})

def getPath (u : Uri) : Bytes := if u.path = [] then [47] else u.path

/-! ### Paths -/

variable {u : Uri} {s : Bytes}

theorem path_parseFragment : (u.parseFragment s).2.path = u.path := by
  unfold parseFragment
  split
  · split <;> rfl
  · rfl

theorem path_parseQueryPart : (u.parseQueryPart s).2.path = u.path := by
  unfold parseQueryPart
  split
  · dsimp only
    split
    · rw [path_parseFragment]
    · rfl
  · rw [path_parseFragment]

/-- A path starts where it is looked for. -/
theorem path_parsePath (hpath : u.path = []) :
    (u.parsePath s).2.path = [] ∨ (u.parsePath s).2.path.head? = s.head? := by
  cases s with
  | nil => exact .inl hpath
  | cons c s =>
    unfold parsePath
    dsimp only
    split
    · rename_i hc
      split
      · right
        rw [path_parseQueryPart]
        have hstop : c ∉ ([63, 35] : Bytes) := by
          intro hmem
          rw [List.mem_cons, List.mem_singleton] at hmem
          rcases hmem with rfl | rfl <;> exact absurd hc (by decide)
        rw [cutAt, List.takeWhile_cons_of_pos (by simpa using hstop)]
        rfl
      · exact .inl hpath
    · left
      rw [path_parseQueryPart, hpath]

/-- Behind an authority, a path starts with a slash. -/
theorem path_parseRest (hpath : u.path = []) (s : Bytes) :
    (u.parseRest (47 :: 47 :: s)).2.path = [] ∨
      (u.parseRest (47 :: 47 :: s)).2.path.head? = some 47 := by
  have hparse : u.parseRest (47 :: 47 :: s) =
      if (cutAt [47, 63, 35] s).1.all isAuthorityCharacter then
        let (host, port) := splitPort (cutAt [47, 63, 35] s).1
        let (uinfo, host) := splitUinfo host
        parsePath { u with host := host, port := port, uinfo := uinfo } (cutAt [47, 63, 35] s).2
      else (false, u) := rfl
  rw [hparse]
  split
  · -- the authority ends at a slash, a question mark or a fragment
    dsimp only
    cases hrest : (cutAt [47, 63, 35] s).2 with
    | nil => exact .inl hpath
    | cons c rest =>
      have hstop := List.head?_dropWhile_not (fun c => decide (c ∉ ([47, 63, 35] : Bytes))) s
      have hc : (s.dropWhile fun c => decide (c ∉ ([47, 63, 35] : Bytes))).head? = some c := by
        change ((cutAt [47, 63, 35] s).2).head? = some c
        rw [hrest]
        rfl
      rw [hc] at hstop
      have hmem : c ∈ ([47, 63, 35] : Bytes) := by simpa [or_iff_not_imp_left] using hstop
      rcases List.mem_cons.mp hmem with rfl | hmem
      · exact path_parsePath hpath
      · left
        have hnot : isPathCharacter c = false := by
          rcases List.mem_cons.mp hmem with rfl | hmem
          · decide
          · rw [List.mem_singleton.mp hmem]
            decide
        unfold parsePath
        dsimp only
        rw [if_neg (by rw [hnot]; exact Bool.false_ne_true), path_parseQueryPart]
        exact hpath
  · exact .inl hpath

/-- A text that starts with a scheme, a colon and two slashes. -/
theorem parseFrom_path {scheme : Bytes} (hscheme : ∀ c ∈ scheme, c ≠ 47 ∧ c ≠ 58 ∧ c ≠ 0)
    (s : Bytes) : (parseFrom (scheme ++ 58 :: 47 :: 47 :: s)).2.path = [] ∨
      (parseFrom (scheme ++ 58 :: 47 :: 47 :: s)).2.path.head? = some 47 := by
  have hpass : ∀ (p : UInt8 → Bool), (∀ c ∈ scheme, p c = true) → ∀ t : Bytes,
      (scheme ++ t).takeWhile p = scheme ++ t.takeWhile p ∧
        (scheme ++ t).dropWhile p = t.dropWhile p := by
    intro p hp t
    exact ⟨List.takeWhile_append_of_pos hp, List.dropWhile_append_of_pos hp⟩
  have hnul : (scheme ++ 58 :: 47 :: 47 :: s).takeWhile (· ≠ 0) =
      scheme ++ 58 :: 47 :: 47 :: s.takeWhile (· ≠ 0) := by
    rw [(hpass _ (fun c hc => by simpa using (hscheme c hc).2.2) _).1]
    rfl
  have hcut : cutAt [47, 58] (scheme ++ 58 :: 47 :: 47 :: s.takeWhile (· ≠ 0)) =
      (scheme, 58 :: 47 :: 47 :: s.takeWhile (· ≠ 0)) := by
    have hstop : ∀ c ∈ scheme, decide (c ∉ ([47, 58] : Bytes)) = true := by
      intro c hc
      have := hscheme c hc
      simp [this.1, this.2.1]
    rw [cutAt, (hpass _ hstop _).1, (hpass _ hstop _).2]
    simp
  unfold parseFrom
  dsimp only
  have hscheme' : ∀ b : Bool, (if b then
      parseRest { schema := scheme, isSsl := scheme = ascii "https" || scheme = ascii "wss" }
        (47 :: 47 :: s.takeWhile (· ≠ 0)) else (false, {})).2.path = [] ∨
      (if b then
        parseRest { schema := scheme, isSsl := scheme = ascii "https" || scheme = ascii "wss" }
          (47 :: 47 :: s.takeWhile (· ≠ 0)) else (false, {})).2.path.head? = some 47 := by
    intro b
    cases b with
    | false => exact .inl rfl
    | true => exact path_parseRest rfl _
  rw [hnul, hcut]
  exact hscheme' _

end Uri

end Yalantinglibs.Cinatra
