import Yalantinglibs.Iguana.Scan

/-!
# Scanning JSON

`iguana/json_util.hpp`, on the bytes from the iterator to the end of the text.

## Main definitions

* `skipWs`, `skipComment` — white space and comments
* `skipTillEscapeOrQoute` — to the next quote or backslash

## Main results

* `skipTillEscapeOrQoute_append` — the scan stops at the end of a run of plain bytes
-/

set_option autoImplicit false

namespace Yalantinglibs.Iguana

open ByteCodec ByteSearch

/-- The code of `'*'`. -/
def star : UInt8 := 0x2A

/-! ### White space -/

/-- A comment of a line, up to its line feed. -/
def skipLineComment : Bytes → Bytes
  | [] => []
  | c :: it => if c = lineFeed then c :: it else skipLineComment it

/-- A comment between stars. The character behind a star that closes nothing is passed over. -/
def skipBlockComment : Bytes → Bytes
  | [] => []
  | c :: it =>
    if c = star then
      match it with
      | [] => []
      | d :: it => if d = slash then it else skipBlockComment it
    else skipBlockComment it

/-- `skip_comment`, behind the slash. -/
def skipComment : Bytes → Except Fault Bytes
  | [] => raise "Unexpected end, expected comment"
  | c :: it =>
    if c = slash then .ok (skipLineComment it)
    else if c = star then .ok (skipBlockComment it)
    else raise "Expected / or * after /"

/-- The loop of `skip_ws`. -/
def skipWsLoop : ℕ → Bytes → Except Fault Bytes
  | _, [] => .ok []
  | 0, _ => .error .tooDeep
  | n + 1, c :: it =>
    if c.toNat < 33 then skipWsLoop n it
    else if c = slash then (skipComment it).bind (skipWsLoop n)
    else .ok (c :: it)

/-- `skip_ws`. -/
def skipWs (it : Bytes) : Except Fault Bytes := skipWsLoop it.length it

/-- Nothing is skipped before a visible character. -/
theorem skipWs_cons {c : UInt8} {it : Bytes} (hc : 33 ≤ c.toNat) (hslash : c ≠ slash) :
    skipWs (c :: it) = .ok (c :: it) := by
  rw [skipWs, List.length_cons, skipWsLoop, if_neg (Nat.not_lt.mpr hc), if_neg hslash]

/-! ### To the next quote or backslash -/

/-- Where `skip_till_escape_or_qoute` stops. -/
def isEscapeOrQoute (c : UInt8) : Bool := c = quote || c = backslash

/-- `skip_till_escape_or_qoute`. -/
def skipTillEscapeOrQoute (it : Bytes) : Except Fault Bytes :=
  match scan (fun chunk => hasByteOf quote chunk ||| hasByteOf backslash chunk) isEscapeOrQoute it with
  | some it => .ok it
  | none => raise "Expected \""

/-- The scan stops at the end of a run of plain bytes. -/
theorem skipTillEscapeOrQoute_append {p : Bytes} (hp : ∀ b ∈ p, isEscapeOrQoute b = false)
    {b : UInt8} (hb : isEscapeOrQoute b = true) (rest : Bytes) :
    skipTillEscapeOrQoute (p ++ b :: rest) = .ok (b :: rest) := by
  rw [skipTillEscapeOrQoute, scan_eq fun chunk hlen => marks_or quote backslash hlen,
    scanTail_append hp hb]

end Yalantinglibs.Iguana
