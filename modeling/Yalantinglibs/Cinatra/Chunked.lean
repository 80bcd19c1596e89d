import Mathlib.Data.List.TakeWhile
import Mathlib.Data.Nat.Digits.Defs
import Yalantinglibs.Data.ByteCodec
import Yalantinglibs.Data.SegmentedStream

/-!
# Chunked bodies

The chunked transfer coding: what `to_chunked_buffers` and `get_chuncked_buffers` of `utils.hpp`
write, and how `read_chunked` of `coro_http_connection.hpp` and `handle_chunked` of
`coro_http_client.hpp` read it. A call of the first, and a round of the loop of the second, read the
line with the size of a chunk and then its data.

The two read a size with different functions, the server with `std::from_chars` and the client with
`strtoll` on a text that does not end. Both add two to it without looking at its magnitude.

## Main definitions

* `toChunkedBuffers`, `getChunckedBuffers` — the writers
* `fromCharsHex`, `hexToInt` — the sizes the server and the client read
* `ChunkStream.next` — a chunk is read
* `ServerDelivers`, `ClientDelivers` — the body arrives
* `ServerSound`, `ClientSound` — nothing but what was received is handed out

## Main results

* `chunked_iff` — when that is the case
-/

set_option autoImplicit false

namespace Yalantinglibs.Cinatra

open SegmentedStream

/-! ### Hexadecimal numbers -/

/-- A digit, with lower case letters. -/
def hexDigit (d : ℕ) : UInt8 := if d < 10 then .ofNat (48 + d) else .ofNat (87 + d)

/-- `std::to_chars` in base 16. -/
def toCharsHex (n : ℕ) : Bytes :=
  if n = 0 then [48] else ((Nat.digits 16 n).map hexDigit).reverse

/-- The value of a digit of either case. -/
def hexVal (b : UInt8) : Option ℕ :=
  if 48 ≤ b ∧ b ≤ 57 then some (b.toNat - 48)
  else if 97 ≤ b ∧ b ≤ 102 then some (b.toNat - 87)
  else if 65 ≤ b ∧ b ≤ 70 then some (b.toNat - 55)
  else none

/-- The digits a number starts with. -/
def hexDigits (s : Bytes) : Bytes := s.takeWhile fun b => (hexVal b).isSome

/-- The value of a row of digits. -/
def hexValue (ds : Bytes) : ℕ := ds.foldl (fun v b => v * 16 + (hexVal b).getD 0) 0

/-- `std::from_chars` in base 16 for a `size_t`. What follows the digits is not looked at. -/
def fromCharsHex (s : Bytes) : Option ℕ :=
  if hexDigits s = [] then none
  else if hexValue (hexDigits s) < 2 ^ 64 then some (hexValue (hexDigits s))
  else none

/-- `isspace`. -/
def isSpace (b : UInt8) : Bool := b = 32 ∨ (9 ≤ b ∧ b ≤ 13)

/-- A text without its sign. -/
def dropSign : Bytes → Bytes
  | [] => []
  | b :: s => if b = 43 ∨ b = 45 then s else b :: s

/-- A text without a `0x` that a digit follows. -/
def dropHexMark : Bytes → Bytes
  | b :: x :: d :: s =>
    if b = 48 ∧ (x = 120 ∨ x = 88) ∧ (hexVal d).isSome then d :: s else b :: x :: d :: s
  | s => s

/-- `strtoll` in base 16: white space, a sign and `0x` may come first, and a value out of range is
the last one of the range. -/
def strtoll (s : Bytes) : ℤ :=
  let text := s.dropWhile isSpace
  let n : ℤ := hexValue (hexDigits (dropHexMark (dropSign text)))
  if text.head? = some 45 then max (-n) (-2 ^ 63) else min n (2 ^ 63 - 1)

/-- `hex_to_int` of the first `size` bytes of a text. Only their number is known to it. -/
def hexToInt (text : Bytes) (size : ℕ) : ℤ :=
  if size = 0 then -1
  else if strtoll text = 0 ∧ text.head? ≠ some 48 then -1
  else strtoll text

/-! ### Writing -/

/-- `CRCF`. -/
def crcf : Bytes := [13, 10]

/-- `LAST_CHUNK`. -/
def lastChunk : Bytes := [48, 13, 10]

/-- `to_chunked_buffers`. -/
def toChunkedBuffers (chunkData : Bytes) (eof : Bool) : Bytes :=
  (if 0 < chunkData.length then toCharsHex chunkData.length ++ crcf ++ chunkData ++ crcf else []) ++
    if eof then lastChunk ++ crcf else []

/-- `get_chuncked_buffers`: what goes before a chunk, or behind the last one. -/
def getChunckedBuffers (isFirstTime isLastTime : Bool) (length : ℕ) : Bytes :=
  if isLastTime then crcf ++ lastChunk ++ crcf
  else if isFirstTime then toCharsHex length ++ crcf
  else crcf ++ toCharsHex length ++ crcf

/-- A body that is sent chunk by chunk, with the end behind the last one. -/
def chunkedBody : List Bytes → Bytes
  | [] => toChunkedBuffers [] true
  | [c] => toChunkedBuffers c true
  | c :: cs => toChunkedBuffers c false ++ chunkedBody cs

/-- A body that is sent as a file: its first chunk, those in the middle, and the end. -/
def chunckedFile (first : Bytes) (middle : List Bytes) : Bytes :=
  getChunckedBuffers true false first.length ++ first ++
    middle.flatMap (fun c => getChunckedBuffers false false c.length ++ c) ++
    getChunckedBuffers false true 0

/-! ### Reading -/

/-- A view of `size` bytes into a buffer. -/
structure View where
  buffered : Bytes
  size : ℕ
  deriving DecidableEq, Repr

def View.bytes (v : View) : Bytes := v.buffered.take v.size

inductive ChunkStatus
  | reading | eof | failed
  deriving DecidableEq, Repr

/-- A reader of chunks: `chunked_buf_`, the segments that are still to come, the views that are
handed out, and whether two more than a size was out of its range. -/
structure ChunkStream where
  chunkedBuf : Bytes
  input : List Bytes
  delivered : List View
  wrapped : Bool
  status : ChunkStatus
  deriving DecidableEq, Repr

/-- A reader at the start of a body of which some is in `head_buf_`. That is moved to
`chunked_buf_` before anything is read. -/
def ChunkStream.start (headBuf : Bytes) (input : List Bytes) : ChunkStream :=
  { chunkedBuf := headBuf
    input := input
    delivered := []
    wrapped := false
    status := .reading }

section Next

/- `sizeOf` reads a size from the buffer and the length of its first line, and from `limit` on two
more is out of range. -/
variable (sizeOf : Bytes → ℕ → Option ℕ) (limit : ℕ)

/-- The size of the chunk that is read next. -/
def ChunkStream.nextSize (s : ChunkStream) : Option ℕ :=
  (readUntil crcf s.chunkedBuf s.input).bind fun r => sizeOf r.2.1 (r.1 - crcf.length)

/-- The data of a chunk behind the line with its size. -/
def ChunkStream.readData (s : ChunkStream) (chunkSize : ℕ) : ChunkStream :=
  let needed := (chunkSize + 2) % 2 ^ 64
  let left := if s.chunkedBuf.length < needed then needed - s.chunkedBuf.length else 0
  match readExactly left s.input with
  | none => { s with status := .failed }
  | some (bs, input) =>
    if chunkSize = 0 then
      -- whatever is buffered behind the last chunk is taken, too
      { s with chunkedBuf := [], input := input, status := .eof }
    else
      { s with
        chunkedBuf := (s.chunkedBuf ++ bs).drop needed
        input := input
        delivered := s.delivered ++ [⟨s.chunkedBuf ++ bs, chunkSize⟩] }

/-- A chunk is read, as long as there was neither an error nor the end. -/
def ChunkStream.next (s : ChunkStream) : ChunkStream :=
  match s.status with
  | .reading =>
    match readUntil crcf s.chunkedBuf s.input with
    | none => { s with status := .failed }
    | some (size, buf, input) =>
      match sizeOf buf (size - crcf.length) with
      | none => { s with chunkedBuf := buf, input := input, status := .failed }
      | some chunkSize =>
        ChunkStream.readData
          { s with
            chunkedBuf := buf.drop size
            input := input
            wrapped := s.wrapped || limit ≤ chunkSize } chunkSize
  | _ => s

end Next

/-- The size a server reads. -/
def serverSize (buf : Bytes) (size : ℕ) : Option ℕ := fromCharsHex (buf.take size)

/-- The size a client reads. It does not know where the text of the size ends, so that the `memory`
behind the buffer may count. -/
def clientSize (memory buf : Bytes) (size : ℕ) : Option ℕ :=
  if hexToInt (buf ++ memory) size < 0 then none else some (hexToInt (buf ++ memory) size).toNat

/-- `read_chunked`, with the size a `size_t`. -/
def readChunked (s : ChunkStream) : ChunkStream := s.next serverSize (2 ^ 64 - 2)

/-- A round of `handle_chunked`, with the size an `int64_t`. -/
def handleChunked (memory : Bytes) (s : ChunkStream) : ChunkStream :=
  s.next (clientSize memory) (2 ^ 63 - 2)

/-- Calls of `read_chunked`. -/
def readChunkeds : ℕ → ChunkStream → ChunkStream
  | 0, s => s
  | k + 1, s => readChunked (readChunkeds k s)

/-- Rounds of `handle_chunked`, with the memory behind the buffer in each. -/
def handleChunkeds (memory : ℕ → Bytes) : ℕ → ChunkStream → ChunkStream
  | 0, s => s
  | k + 1, s => handleChunked (memory k) (handleChunkeds memory k s)

/-! ### Sizes -/

section Sizes

variable {n : ℕ}

theorem hexVal_hexDigit : ∀ d < 16, hexVal (hexDigit d) = some d := by
  decide

/-- A row of digits. -/
def AllHex (ds : Bytes) : Prop := ∀ b ∈ ds, (hexVal b).isSome

theorem toCharsHex_allHex (n : ℕ) : AllHex (toCharsHex n) := by
  intro b hb
  unfold toCharsHex at hb
  split at hb
  · obtain rfl := List.mem_singleton.mp hb
    rfl
  · rw [List.mem_reverse, List.mem_map] at hb
    obtain ⟨d, hd, rfl⟩ := hb
    rw [hexVal_hexDigit d (Nat.digits_lt_base (by decide) hd)]
    rfl

theorem toCharsHex_ne_nil (n : ℕ) : toCharsHex n ≠ [] := by
  unfold toCharsHex
  split
  · exact List.cons_ne_nil _ _
  · next hn =>
    intro hnil
    rw [List.reverse_eq_nil_iff, List.map_eq_nil_iff] at hnil
    exact hn (Nat.digits_eq_nil_iff_eq_zero.mp hnil)

/-- The digits of a number have its value. -/
theorem hexValue_toCharsHex (n : ℕ) : hexValue (toCharsHex n) = n := by
  unfold toCharsHex
  split
  · next hn => exact hn.symm
  · have hfold : ∀ ds : List ℕ, (∀ d ∈ ds, d < 16) →
        hexValue (ds.map hexDigit).reverse = Nat.ofDigits 16 ds := by
      intro ds
      induction ds with
      | nil => exact fun _ => rfl
      | cons d ds ih =>
        intro hds
        have hd := hexVal_hexDigit d (hds d (List.mem_cons_self ..))
        have ih := ih fun e he => hds e (List.mem_cons_of_mem d he)
        rw [hexValue] at ih ⊢
        rw [List.map_cons, List.reverse_cons, List.foldl_append, ih, List.foldl_cons,
          List.foldl_nil, hd, Option.getD_some, Nat.ofDigits_cons]
        omega
    rw [hfold _ fun d hd => Nat.digits_lt_base (by decide) hd, Nat.ofDigits_digits]

theorem cr_not_mem {ds : Bytes} (h : AllHex ds) : (13 : UInt8) ∉ ds := by
  intro hcr
  exact absurd (h 13 hcr) (by decide)

/-- The digits end at the end of a line. -/
theorem hexDigits_line {ds : Bytes} (h : AllHex ds) (more : Bytes) :
    hexDigits (ds ++ (crcf ++ more)) = ds := by
  have hcr : (hexVal 13).isSome = false := by decide
  rw [hexDigits, List.takeWhile_append_of_pos h]
  simp [crcf, hcr]

/-- The server reads the size of a chunk. -/
theorem fromCharsHex_toCharsHex (hn : n < 2 ^ 64) : fromCharsHex (toCharsHex n) = some n := by
  have hall : hexDigits (toCharsHex n) = toCharsHex n := by
    exact List.takeWhile_eq_self_iff.mpr (toCharsHex_allHex n)
  rw [fromCharsHex, hall, if_neg (toCharsHex_ne_nil n), hexValue_toCharsHex, if_pos hn]

theorem toNat_of_hexVal {b : UInt8} (h : (hexVal b).isSome) : 48 ≤ b.toNat := by
  unfold hexVal at h
  split_ifs at h with h₁ h₂ h₃
  · exact UInt8.le_iff_toNat_le.mp h₁.1
  · exact le_trans (by decide) (UInt8.le_iff_toNat_le.mp h₂.1)
  · exact le_trans (by decide) (UInt8.le_iff_toNat_le.mp h₃.1)
  · cases h

theorem isSpace_of_hexVal {b : UInt8} (h : (hexVal b).isSome) : isSpace b = false := by
  have hlow := toNat_of_hexVal h
  apply decide_eq_false
  rintro (rfl | ⟨-, hle⟩)
  · exact absurd h (by decide)
  · have hle : b.toNat ≤ 13 := UInt8.le_iff_toNat_le.mp hle
    omega

/-- A line of digits has no sign and no `0x` before its value. -/
theorem dropHexMark_line {b : UInt8} {ds : Bytes} (h : AllHex (b :: ds)) (more : Bytes) :
    dropHexMark (dropSign (b :: ds ++ (crcf ++ more))) = b :: ds ++ (crcf ++ more) := by
  have hb : (hexVal b).isSome := h b (List.mem_cons_self ..)
  have hsign : ¬ (b = 43 ∨ b = 45) := by
    rintro (rfl | rfl) <;> exact absurd hb (by decide)
  rw [List.cons_append, dropSign, if_neg hsign]
  cases ds with
  | nil =>
    rw [List.nil_append, crcf, List.cons_append, List.cons_append, dropHexMark, if_neg]
    rintro ⟨-, hx | hx, -⟩ <;> exact absurd hx (by decide)
  | cons x ds =>
    have hx : (hexVal x).isSome := h x (by simp)
    obtain ⟨d, rest, hrest⟩ : ∃ d rest, ds ++ (crcf ++ more) = d :: rest := by
      cases ds with
      | nil => exact ⟨13, 10 :: more, rfl⟩
      | cons d ds => exact ⟨d, ds ++ (crcf ++ more), rfl⟩
    rw [List.cons_append, hrest, dropHexMark, if_neg]
    rintro ⟨-, rfl | rfl, -⟩ <;> exact absurd hx (by decide)

/-- The client reads the size of a chunk. -/
theorem hexToInt_toCharsHex (hn : n < 2 ^ 63) (more : Bytes) :
    hexToInt (toCharsHex n ++ (crcf ++ more)) (toCharsHex n).length = n := by
  have hall := toCharsHex_allHex n
  have hvalue := hexValue_toCharsHex n
  have hzero : n = 0 → toCharsHex n = [48] := by
    rintro rfl
    rfl
  cases hds : toCharsHex n with
  | nil => exact absurd hds (toCharsHex_ne_nil n)
  | cons b ds =>
    rw [hds] at hall hvalue hzero
    have hb : (hexVal b).isSome := hall b (List.mem_cons_self ..)
    have hspace : (b :: ds ++ (crcf ++ more)).dropWhile isSpace = b :: ds ++ (crcf ++ more) := by
      rw [List.cons_append, List.dropWhile_cons_of_neg (by rw [isSpace_of_hexVal hb]; decide)]
    have hminus : ¬ (b :: ds ++ (crcf ++ more)).head? = some 45 := by
      rw [List.cons_append, List.head?_cons, Option.some.injEq]
      rintro rfl
      exact absurd hb (by decide)
    have hstrtoll : strtoll (b :: ds ++ (crcf ++ more)) = n := by
      rw [strtoll]
      simp only [hspace, dropHexMark_line hall, hexDigits_line hall, hvalue]
      rw [if_neg hminus]
      omega
    rw [hexToInt, if_neg (by simp), hstrtoll, if_neg]
    rintro ⟨hn0, hhead⟩
    rw [hzero (by exact_mod_cast hn0)] at hhead
    exact hhead rfl

end Sizes

/-! ### A chunk is read -/

section Read

variable {sizeOf : Bytes → ℕ → Option ℕ} {limit n : ℕ} {s : ChunkStream} {data rest : Bytes}

/-- All bytes a reader has and will have. -/
def ChunkStream.stream (s : ChunkStream) : Bytes := s.chunkedBuf ++ s.input.flatten

/-- The line with a size is read, and maybe more. -/
theorem readUntil_line {buf : Bytes} {segs : List Bytes}
    (h : buf ++ segs.flatten = toCharsHex n ++ (crcf ++ rest)) :
    ∃ more segs', readUntil crcf buf segs =
        some ((toCharsHex n).length + crcf.length, toCharsHex n ++ (crcf ++ more), segs') ∧
      more ++ segs'.flatten = rest := by
  have hend : endOf crcf (buf ++ segs.flatten) =
      some ((toCharsHex n).length + crcf.length) := by
    rw [h]
    exact endOf_of_not_mem (cr_not_mem (toCharsHex_allHex n)) rest
  obtain ⟨buf', segs', hread, hstream, hlength⟩ := readUntil_of_endOf hend
  have hline : toCharsHex n ++ crcf <+: buf' ++ segs'.flatten := by
    rw [hstream, h, ← List.append_assoc]
    exact List.prefix_append _ _
  have hprefix : toCharsHex n ++ crcf <+: buf' := by
    apply List.prefix_of_prefix_length_le hline (List.prefix_append _ _)
    rw [List.length_append]
    exact hlength
  obtain ⟨more, hmore⟩ := hprefix
  rw [List.append_assoc] at hmore
  refine ⟨more, segs', hmore ▸ hread, ?_⟩
  rw [h, ← hmore, List.append_assoc, List.append_assoc] at hstream
  exact List.append_cancel_left (List.append_cancel_left hstream)

/-- The data of a chunk are read, with the two bytes behind them. -/
theorem ChunkStream.readData_eq {body : Bytes} (hbody : body.length = n + 2) (hn : n + 2 < 2 ^ 64)
    (hstream : s.stream = body ++ rest) :
    ∃ buf input, buf.take (n + 2) = body ∧ buf.drop (n + 2) ++ input.flatten = rest ∧
      s.readData n =
        if n = 0 then { s with chunkedBuf := [], input := input, status := .eof }
        else { s with
          chunkedBuf := buf.drop (n + 2), input := input, delivered := s.delivered ++ [⟨buf, n⟩] } := by
  have hlength := congrArg List.length hstream
  rw [ChunkStream.stream, List.length_append, List.length_append, hbody] at hlength
  obtain ⟨left, hleft⟩ : ∃ left, left =
    if s.chunkedBuf.length < n + 2 then n + 2 - s.chunkedBuf.length else 0 := ⟨_, rfl⟩
  have hle : left ≤ s.input.flatten.length ∧ n + 2 ≤ s.chunkedBuf.length + left := by
    split at hleft <;> omega
  obtain ⟨input, hread, hrest⟩ := readExactly_of_le hle.1
  -- the buffer has the whole chunk now, and the rest of the stream is what it was
  have hall : (s.chunkedBuf ++ s.input.flatten.take left) ++ input.flatten = body ++ rest := by
    rw [← hstream, ChunkStream.stream, hrest, List.append_assoc, List.take_append_drop]
  have hfull : n + 2 ≤ (s.chunkedBuf ++ s.input.flatten.take left).length := by
    rw [List.length_append, List.length_take, Nat.min_eq_left hle.1]
    exact hle.2
  refine ⟨s.chunkedBuf ++ s.input.flatten.take left, input, ?_, ?_, ?_⟩
  · rw [← List.take_append_of_le_length hfull, hall, List.take_left' hbody]
  · rw [← List.drop_append_of_le_length hfull, hall, List.drop_left' hbody]
  · rw [ChunkStream.readData]
    simp only [Nat.mod_eq_of_lt hn, ← hleft, hread]

/-- A round reads a chunk, or the end of the body. -/
theorem ChunkStream.next_eq (hreading : s.status = .reading) (hdata : data.length = n)
    (hn : n + 2 < 2 ^ 64) (hlimit : n < limit)
    (hsize : ∀ more, sizeOf (toCharsHex n ++ (crcf ++ more)) (toCharsHex n).length = some n)
    (hstream : s.stream = toCharsHex n ++ (crcf ++ (data ++ crcf ++ rest))) :
    (s.next sizeOf limit).wrapped = s.wrapped ∧
      if n = 0 then (s.next sizeOf limit).status = .eof ∧
        (s.next sizeOf limit).delivered = s.delivered
      else (s.next sizeOf limit).status = .reading ∧ (s.next sizeOf limit).stream = rest ∧
        ∃ v, v.bytes = data ∧ (s.next sizeOf limit).delivered = s.delivered ++ [v] := by
  obtain ⟨more, segs', hread, hmore⟩ := readUntil_line hstream
  have hbody : (data ++ crcf).length = n + 2 := by
    rw [List.length_append, hdata]
    rfl
  have hdrop : (toCharsHex n ++ (crcf ++ more)).drop ((toCharsHex n).length + crcf.length) =
      more := by
    rw [← List.append_assoc, List.drop_left' (List.length_append ..)]
  have hfits : (s.wrapped || decide (limit ≤ n)) = s.wrapped := by
    rw [decide_eq_false (Nat.not_le_of_lt hlimit), Bool.or_false]
  obtain ⟨buf, input, htake, hrest, hstep⟩ := ChunkStream.readData_eq
    (s := { s with chunkedBuf := more, input := segs' }) hbody hn hmore
  have hnext : s.next sizeOf limit =
      { s with chunkedBuf := more, input := segs' }.readData n := by
    rw [ChunkStream.next, hreading]
    simp only [hread, Nat.add_sub_cancel, hsize, hdrop, hfits]
  rw [hnext, hstep]
  by_cases hzero : n = 0
  · simp only [if_pos hzero, and_self]
  · simp only [if_neg hzero]
    refine ⟨trivial, hreading, hrest, ⟨buf, n⟩, ?_, rfl⟩
    have hview : (buf.take (n + 2)).take n = data := by
      rw [htake, List.take_left' hdata]
    rw [List.take_take, Nat.min_eq_left (Nat.le_add_right n 2)] at hview
    exact hview

end Read

/-! ### A body is read -/

/-- The bytes that are handed out. -/
def ChunkStream.body (s : ChunkStream) : Bytes := s.delivered.flatMap View.bytes

/-- A chunk on the wire. An empty one is the end of the body. -/
def chunkWire (c : Bytes) : Bytes := toCharsHex c.length ++ (crcf ++ (c ++ crcf))

/-- A chunk without data is the end of the body. -/
theorem ChunkStream.next_end {sizeOf : Bytes → ℕ → Option ℕ} {limit : ℕ} {s : ChunkStream}
    {rest : Bytes} (hreading : s.status = .reading) (hpos : 0 < limit)
    (hsize : ∀ more, sizeOf (toCharsHex 0 ++ (crcf ++ more)) (toCharsHex 0).length = some 0)
    (hstream : s.stream = chunkWire [] ++ rest) :
    (s.next sizeOf limit).status = .eof ∧ (s.next sizeOf limit).body = s.body := by
  have hline : s.stream = toCharsHex 0 ++ (crcf ++ ([] ++ crcf ++ rest)) := by
    rw [hstream, chunkWire]
    simp only [List.length_nil, List.append_assoc]
  obtain ⟨-, hend⟩ := ChunkStream.next_eq hreading (List.length_nil) (by decide) hpos hsize hline
  rw [if_pos rfl] at hend
  exact ⟨hend.1, by rw [ChunkStream.body, hend.2]; rfl⟩

/-- The data of a chunk are handed out. -/
theorem ChunkStream.next_chunk {sizeOf : Bytes → ℕ → Option ℕ} {limit : ℕ} {s : ChunkStream}
    {c rest : Bytes} (hreading : s.status = .reading) (hc : c ≠ []) (hfits : c.length < limit)
    (hlimit : limit + 1 < 2 ^ 64)
    (hsize : ∀ more, sizeOf (toCharsHex c.length ++ (crcf ++ more)) (toCharsHex c.length).length =
      some c.length)
    (hstream : s.stream = chunkWire c ++ rest) :
    (s.next sizeOf limit).status = .reading ∧ (s.next sizeOf limit).stream = rest ∧
      (s.next sizeOf limit).body = s.body ++ c := by
  have hline : s.stream = toCharsHex c.length ++ (crcf ++ (c ++ crcf ++ rest)) := by
    rw [hstream, chunkWire]
    simp only [List.append_assoc]
  obtain ⟨-, hnext⟩ := ChunkStream.next_eq hreading rfl (by omega) hfits hsize hline
  rw [if_neg fun hnil => hc (List.length_eq_zero_iff.mp hnil)] at hnext
  obtain ⟨hstatus, hrest, v, hv, hdelivered⟩ := hnext
  refine ⟨hstatus, hrest, ?_⟩
  rw [ChunkStream.body, hdelivered, List.flatMap_append, List.flatMap_cons, hv, List.flatMap_nil,
    List.append_nil]
  rfl

section Run

/- The states of a reader, one after the other. -/
variable {sizeOf : ℕ → Bytes → ℕ → Option ℕ} {limit : ℕ} {t : ℕ → ChunkStream}

/-- A body ends where it has an empty chunk. -/
theorem exists_eof (hstep : ∀ k, t (k + 1) = (t k).next (sizeOf k) limit)
    (hsize : ∀ k n more, n < limit →
      sizeOf k (toCharsHex n ++ (crcf ++ more)) (toCharsHex n).length = some n)
    (hlimit : limit + 1 < 2 ^ 64) (hpos : 0 < limit) {chunks : List Bytes}
    (hfits : ∀ c ∈ chunks, c.length < limit) {k : ℕ} {rest : Bytes}
    (hreading : (t k).status = .reading)
    (hstream : (t k).stream = chunks.flatMap chunkWire ++ (chunkWire [] ++ rest)) :
    ∃ k', (t k').status = .eof ∧
      (t k').body = (t k).body ++ (chunks.takeWhile (· ≠ [])).flatten := by
  induction chunks generalizing k with
  | nil =>
    obtain ⟨hstatus, hbody⟩ := ChunkStream.next_end hreading hpos (fun more => hsize k 0 more hpos)
      hstream
    rw [← hstep] at hstatus hbody
    exact ⟨k + 1, hstatus, by rw [hbody, List.takeWhile_nil, List.flatten_nil, List.append_nil]⟩
  | cons c chunks ih =>
    rw [List.flatMap_cons, List.append_assoc] at hstream
    have hc : c.length < limit := hfits c (List.mem_cons_self ..)
    by_cases hnil : c = []
    · subst hnil
      obtain ⟨hstatus, hbody⟩ := ChunkStream.next_end hreading hpos
        (fun more => hsize k 0 more hpos) hstream
      rw [← hstep] at hstatus hbody
      refine ⟨k + 1, hstatus, ?_⟩
      rw [hbody, List.takeWhile_cons_of_neg (by simp), List.flatten_nil, List.append_nil]
    · obtain ⟨hstatus, hrest, hbody⟩ := ChunkStream.next_chunk hreading hnil hc hlimit
        (fun more => hsize k c.length more hc) hstream
      rw [← hstep] at hstatus hrest hbody
      obtain ⟨k', hstatus', hbody'⟩ := ih (fun d hd => hfits d (List.mem_cons_of_mem c hd))
        hstatus hrest
      refine ⟨k', hstatus', ?_⟩
      rw [hbody', hbody, List.takeWhile_cons_of_pos (by simpa using hnil), List.flatten_cons,
        List.append_assoc]

/-- Behind the end nothing changes. -/
theorem eq_of_eof (hstep : ∀ k, t (k + 1) = (t k).next (sizeOf k) limit) {k k' : ℕ}
    (hk : (t k).status = .eof) (hk' : (t k').status = .eof) : t k = t k' := by
  have hstay : ∀ {k}, (t k).status = .eof → ∀ n, t (k + n) = t k := by
    intro k hk n
    induction n with
    | zero => rfl
    | succ n ih =>
      rw [← Nat.add_assoc, hstep, ih, ChunkStream.next, hk]
  obtain hle | hle := Nat.le_total k k'
  · rw [← Nat.add_sub_cancel' hle, hstay hk]
  · rw [← hstay hk' (k - k'), Nat.add_sub_cancel' hle]

/-- Exactly the chunks in front of the first empty one arrive. -/
theorem exists_eof_iff (hstep : ∀ k, t (k + 1) = (t k).next (sizeOf k) limit)
    (hsize : ∀ k n more, n < limit →
      sizeOf k (toCharsHex n ++ (crcf ++ more)) (toCharsHex n).length = some n)
    (hlimit : limit + 1 < 2 ^ 64) (hpos : 0 < limit) {chunks : List Bytes}
    (hfits : ∀ c ∈ chunks, c.length < limit) {k : ℕ} {rest : Bytes}
    (hreading : (t k).status = .reading)
    (hstream : (t k).stream = chunks.flatMap chunkWire ++ (chunkWire [] ++ rest)) (body : Bytes) :
    (∃ k', (t k').status = .eof ∧ (t k').body = (t k).body ++ body) ↔
      body = (chunks.takeWhile (· ≠ [])).flatten := by
  obtain ⟨k₁, hstatus₁, hbody₁⟩ := exists_eof hstep hsize hlimit hpos hfits hreading hstream
  constructor
  · rintro ⟨k₂, hstatus₂, hbody₂⟩
    rw [eq_of_eof hstep hstatus₂ hstatus₁, hbody₁] at hbody₂
    exact (List.append_cancel_left hbody₂).symm
  · rintro rfl
    exact ⟨k₁, hstatus₁, hbody₁⟩

end Run

/-! ### What the writers write -/

theorem chunkWire_nil : chunkWire [] = lastChunk ++ crcf := rfl

theorem toChunkedBuffers_false (c : Bytes) :
    toChunkedBuffers c false = [c].flatMap fun c => if c = [] then [] else chunkWire c := by
  rw [List.flatMap_singleton, toChunkedBuffers]
  by_cases hc : c = []
  · subst hc
    rfl
  · have hpos : 0 < c.length := List.length_pos_iff.mpr hc
    simp [hc, hpos, chunkWire]

theorem toChunkedBuffers_true (c : Bytes) :
    toChunkedBuffers c true = toChunkedBuffers c false ++ chunkWire [] := by
  rw [chunkWire_nil]
  simp [toChunkedBuffers]

/-- Chunk by chunk, those that are empty are left out. -/
theorem chunkedBody_eq (chunks : List Bytes) :
    chunkedBody chunks = (chunks.filter (· ≠ [])).flatMap chunkWire ++ chunkWire [] := by
  have hskip : ∀ c : Bytes, toChunkedBuffers c false =
      ([c].filter (· ≠ [])).flatMap chunkWire := by
    intro c
    rw [toChunkedBuffers_false]
    by_cases hc : c = [] <;> simp [hc]
  induction chunks with
  | nil => rfl
  | cons c cs ih =>
    have hsplit : (c :: cs).filter (· ≠ []) = [c].filter (· ≠ []) ++ cs.filter (· ≠ []) := by
      rw [← List.filter_append, List.singleton_append]
    cases cs with
    | nil => rw [chunkedBody, toChunkedBuffers_true, hskip]
    | cons d ds =>
      rw [chunkedBody, ih, hskip, hsplit, List.flatMap_append, List.append_assoc]
      exact fun h => List.cons_ne_nil d ds h

/-- The line break in front of a chunk of a file is that behind the chunk before it. -/
theorem chunckedFile_eq (first : Bytes) (middle : List Bytes) :
    chunckedFile first middle = (first :: middle).flatMap chunkWire ++ chunkWire [] := by
  have hshift : ∀ cs : List Bytes,
      cs.flatMap (fun c => getChunckedBuffers false false c.length ++ c) ++ crcf =
        crcf ++ cs.flatMap chunkWire := by
    intro cs
    induction cs with
    | nil => rfl
    | cons c cs ih =>
      rw [List.flatMap_cons, List.flatMap_cons, List.append_assoc, ih]
      simp [getChunckedBuffers, chunkWire]
  have hend : getChunckedBuffers false true 0 = crcf ++ chunkWire [] := rfl
  rw [chunckedFile, hend, ← List.append_assoc, List.append_assoc _ _ crcf, hshift,
    List.flatMap_cons]
  simp [getChunckedBuffers, chunkWire]

/-- There is no data behind a chunk without data. -/
def NoDataBehindEmpty : List Bytes → Prop
  | [] => True
  | c :: cs => if c = [] then cs.flatten = [] else NoDataBehindEmpty cs

theorem flatten_eq_takeWhile_iff (chunks : List Bytes) :
    chunks.flatten = (chunks.takeWhile (· ≠ [])).flatten ↔ NoDataBehindEmpty chunks := by
  induction chunks with
  | nil => simp [NoDataBehindEmpty]
  | cons c cs ih =>
    rw [NoDataBehindEmpty]
    by_cases hc : c = []
    · subst hc
      simp
    · rw [if_neg hc, List.takeWhile_cons_of_pos (by simpa using hc), List.flatten_cons,
        List.flatten_cons, List.append_cancel_left_eq, ih]

theorem takeWhile_filter (chunks : List Bytes) :
    ((chunks.filter (· ≠ [])).takeWhile (· ≠ [])).flatten = chunks.flatten := by
  rw [List.takeWhile_eq_self_iff.mpr fun c hc => (List.mem_filter.mp hc).2]
  induction chunks with
  | nil => rfl
  | cons c cs ih =>
    by_cases hc : c = []
    · subst hc
      simpa using ih
    · rw [List.filter_cons_of_pos (by simpa using hc), List.flatten_cons, ih, List.flatten_cons]

/-! ### Hostile streams -/

section Sound

/-- Nothing is handed out but what was received, and no size wraps when two is added. -/
def ChunkStream.Sound (s : ChunkStream) : Prop :=
  s.wrapped = false ∧ ∀ v ∈ s.delivered, v.size ≤ v.buffered.length

variable {sizeOf : Bytes → ℕ → Option ℕ} {limit n : ℕ} {s : ChunkStream}

theorem ChunkStream.readData_wrapped (s : ChunkStream) (n : ℕ) :
    (s.readData n).wrapped = s.wrapped := by
  rw [ChunkStream.readData]
  split
  · rfl
  · split <;> rfl

/-- A view of a chunk is covered by the bytes that were read for it. -/
theorem ChunkStream.readData_sound (hs : s.Sound) (hn : n + 2 < 2 ^ 64) :
    (s.readData n).Sound := by
  refine ⟨(s.readData_wrapped n).trans hs.1, ?_⟩
  rw [ChunkStream.readData]
  simp only [Nat.mod_eq_of_lt hn]
  split
  · exact hs.2
  · next bs input hread =>
    have hlength : bs.length = _ := readExactly_length hread
    split
    · exact hs.2
    · intro v hv
      obtain hv | hv := List.mem_append.mp hv
      · exact hs.2 v hv
      · obtain rfl := List.mem_singleton.mp hv
        rw [List.length_append, hlength]
        split <;> simp only <;> omega

/-- A round is sound if the size it reads is below the limit, and only then. -/
theorem ChunkStream.next_sound_iff (hlimit : limit + 1 < 2 ^ 64) (hs : s.Sound) :
    (s.next sizeOf limit).Sound ↔
      (s.status = .reading → ∀ n, s.nextSize sizeOf = some n → n < limit) := by
  cases hstatus : s.status with
  | reading =>
    rw [ChunkStream.next, hstatus, ChunkStream.nextSize]
    cases hread : readUntil crcf s.chunkedBuf s.input with
    | none => exact iff_of_true ⟨hs.1, hs.2⟩ fun _ n hn => by cases hn
    | some r =>
      obtain ⟨size, buf, input⟩ := r
      simp only [Option.bind_some]
      cases hsize : sizeOf buf (size - crcf.length) with
      | none => exact iff_of_true ⟨hs.1, hs.2⟩ fun _ n hn => by cases hn
      | some n =>
        simp only [Option.some.injEq, forall_const, forall_eq']
        constructor
        · rintro ⟨hwrapped, -⟩
          rw [ChunkStream.readData_wrapped, Bool.or_eq_false_iff] at hwrapped
          exact Nat.lt_of_not_le (of_decide_eq_false hwrapped.2)
        · intro hn
          apply ChunkStream.readData_sound _ (by omega)
          refine ⟨?_, hs.2⟩
          rw [hs.1, Bool.false_or]
          exact decide_eq_false (Nat.not_le_of_lt hn)
  | eof =>
    rw [ChunkStream.next, hstatus]
    exact iff_of_true hs fun h => by cases h
  | failed =>
    rw [ChunkStream.next, hstatus]
    exact iff_of_true hs fun h => by cases h

/-- A reader is sound in every round if it never reads a size from the limit on. -/
theorem forall_sound_iff {sizeOf : ℕ → Bytes → ℕ → Option ℕ} {t : ℕ → ChunkStream}
    (hstep : ∀ k, t (k + 1) = (t k).next (sizeOf k) limit) (hlimit : limit + 1 < 2 ^ 64)
    (hstart : (t 0).Sound) :
    (∀ k, (t k).Sound) ↔ ∀ k, (t k).status = .reading → ∀ n, (t k).nextSize (sizeOf k) = some n →
      n < limit := by
  constructor
  · intro hsound k
    apply (ChunkStream.next_sound_iff hlimit (hsound k)).mp
    rw [← hstep]
    exact hsound (k + 1)
  · intro hsizes k
    induction k with
    | zero => exact hstart
    | succ k ih =>
      rw [hstep]
      exact (ChunkStream.next_sound_iff hlimit ih).mpr (hsizes k)

end Sound

/-! ### The two readers -/

theorem serverSize_line {n : ℕ} (hn : n < 2 ^ 64 - 2) (more : Bytes) :
    serverSize (toCharsHex n ++ (crcf ++ more)) (toCharsHex n).length = some n := by
  rw [serverSize, List.take_left, fromCharsHex_toCharsHex (by omega)]

theorem clientSize_line {n : ℕ} (hn : n < 2 ^ 63 - 2) (memory more : Bytes) :
    clientSize memory (toCharsHex n ++ (crcf ++ more)) (toCharsHex n).length = some n := by
  have hvalue : hexToInt (toCharsHex n ++ (crcf ++ more) ++ memory) (toCharsHex n).length = n := by
    rw [List.append_assoc, List.append_assoc]
    exact hexToInt_toCharsHex (by omega) (more ++ memory)
  rw [clientSize, hvalue, if_neg (by omega), Int.toNat_natCast]

/-- Calls of the server hand out a body, and then tell its end. -/
def ServerDelivers (headBuf : Bytes) (segs : List Bytes) (body : Bytes) : Prop :=
  ∃ k, (readChunkeds k (.start headBuf segs)).status = .eof ∧
    (readChunkeds k (.start headBuf segs)).body = body

/-- The loop of the client hands out a body, and then sees its end. -/
def ClientDelivers (memory : ℕ → Bytes) (headBuf : Bytes) (segs : List Bytes) (body : Bytes) :
    Prop :=
  ∃ k, (handleChunkeds memory k (.start headBuf segs)).status = .eof ∧
    (handleChunkeds memory k (.start headBuf segs)).body = body

/-- Every call of the server is sound. -/
def ServerSound (headBuf : Bytes) (segs : List Bytes) : Prop :=
  ∀ k, (readChunkeds k (.start headBuf segs)).Sound

/-- Every round of the client is sound. -/
def ClientSound (memory : ℕ → Bytes) (headBuf : Bytes) (segs : List Bytes) : Prop :=
  ∀ k, (handleChunkeds memory k (.start headBuf segs)).Sound

/-- A chunk, with the line break behind it, is an object in memory. -/
def FitsMemory (chunks : List Bytes) : Prop := ∀ c ∈ chunks, c.length + 2 < 2 ^ 63

theorem delivers_iff {chunks : List Bytes} (hfits : FitsMemory chunks) (memory : ℕ → Bytes)
    (headBuf : Bytes) (segs : List Bytes)
    (hstream : headBuf ++ segs.flatten = chunks.flatMap chunkWire ++ chunkWire []) (body : Bytes) :
    (ServerDelivers headBuf segs body ↔ body = (chunks.takeWhile (· ≠ [])).flatten) ∧
      (ClientDelivers memory headBuf segs body ↔
        body = (chunks.takeWhile (· ≠ [])).flatten) := by
  have hstream : (ChunkStream.start headBuf segs).stream =
      chunks.flatMap chunkWire ++ (chunkWire [] ++ []) := by
    rw [List.append_nil]
    exact hstream
  constructor
  · refine @exists_eof_iff (fun _ => serverSize) _ (fun k => readChunkeds k (.start headBuf segs))
      (fun _ => rfl) (fun _ n more hn => serverSize_line hn more) (by decide) (by decide) _ ?_ 0 _
      rfl hstream body
    intro c hc
    have := hfits c hc
    omega
  · refine @exists_eof_iff (fun k => clientSize (memory k)) _
      (fun k => handleChunkeds memory k (.start headBuf segs)) (fun _ => rfl)
      (fun k n more hn => clientSize_line hn (memory k) more) (by decide) (by decide) _ ?_ 0 _
      rfl hstream body
    intro c hc
    have := hfits c hc
    omega

/-- A body that is sent chunk by chunk arrives. One that is sent as a file arrives if no data follow
an empty chunk. Whatever else is sent, nothing but what was received is handed out, unless a size is
read that two cannot be added to. -/
theorem chunked_iff (memory : ℕ → Bytes) (headBuf : Bytes) (segs : List Bytes) :
    (∀ chunks, FitsMemory chunks → headBuf ++ segs.flatten = chunkedBody chunks →
      ServerDelivers headBuf segs chunks.flatten ∧
        ClientDelivers memory headBuf segs chunks.flatten) ∧
    (∀ first middle, FitsMemory (first :: middle) →
      headBuf ++ segs.flatten = chunckedFile first middle →
        (ServerDelivers headBuf segs (first :: middle).flatten ↔
          NoDataBehindEmpty (first :: middle)) ∧
        (ClientDelivers memory headBuf segs (first :: middle).flatten ↔
          NoDataBehindEmpty (first :: middle))) ∧
    (ServerSound headBuf segs ↔ ∀ k, (readChunkeds k (.start headBuf segs)).status = .reading →
      ∀ n, (readChunkeds k (.start headBuf segs)).nextSize serverSize = some n →
        n < 2 ^ 64 - 2) ∧
    (ClientSound memory headBuf segs ↔
      ∀ k, (handleChunkeds memory k (.start headBuf segs)).status = .reading →
        ∀ n, (handleChunkeds memory k (.start headBuf segs)).nextSize (clientSize (memory k)) =
          some n → n < 2 ^ 63 - 2) := by
  have hstart : (ChunkStream.start headBuf segs).Sound := ⟨rfl, fun v hv => by cases hv⟩
  refine ⟨fun chunks hfits hstream => ?_, fun first middle hfits hstream => ?_, ?_, ?_⟩
  · rw [chunkedBody_eq] at hstream
    have hfits' : FitsMemory (chunks.filter (· ≠ [])) :=
      fun c hc => hfits c (List.mem_filter.mp hc).1
    have hdelivers := delivers_iff hfits' memory headBuf segs hstream chunks.flatten
    exact ⟨hdelivers.1.mpr (takeWhile_filter chunks).symm,
      hdelivers.2.mpr (takeWhile_filter chunks).symm⟩
  · rw [chunckedFile_eq] at hstream
    have hdelivers := delivers_iff hfits memory headBuf segs hstream (first :: middle).flatten
    rw [flatten_eq_takeWhile_iff] at hdelivers
    exact hdelivers
  · exact @forall_sound_iff _ (fun _ => serverSize)
      (fun k => readChunkeds k (.start headBuf segs)) (fun _ => rfl) (by decide) hstart
  · exact @forall_sound_iff _ (fun k => clientSize (memory k))
      (fun k => handleChunkeds memory k (.start headBuf segs)) (fun _ => rfl) (by decide) hstart

/-- A body of three chunks and a file of three, each cut within a size, within data and behind
it. -/
theorem chunked_iff_sample :
    (ServerDelivers [50] [[13, 10, 65], [66, 13], [10, 49, 13, 10, 67, 13, 10, 51, 13, 10, 68],
        [69, 70, 13, 10, 48, 13, 10, 13, 10]] [65, 66, 67, 68, 69, 70] ∧
      ClientDelivers (fun _ => [57]) [50] [[13, 10, 65], [66, 13],
        [10, 49, 13, 10, 67, 13, 10, 51, 13, 10, 68], [69, 70, 13, 10, 48, 13, 10, 13, 10]]
        [65, 66, 67, 68, 69, 70]) ∧
    ServerDelivers [] [[49, 13, 10, 65, 13], [10, 50, 13, 10, 66], [67, 13, 10, 49, 13, 10, 68],
        [13, 10, 48, 13, 10, 13, 10]] [65, 66, 67, 68] ∧
      ClientDelivers (fun _ => [57]) [] [[49, 13, 10, 65, 13], [10, 50, 13, 10, 66],
        [67, 13, 10, 49, 13, 10, 68], [13, 10, 48, 13, 10, 13, 10]] [65, 66, 67, 68] := by
  constructor
  · exact (chunked_iff _ _ _).1 [[65, 66], [67], [68, 69, 70]] (by simp [FitsMemory])
      (by decide +kernel)
  · obtain ⟨hserver, hclient⟩ := (chunked_iff (fun _ => [57]) [] [[49, 13, 10, 65, 13],
      [10, 50, 13, 10, 66], [67, 13, 10, 49, 13, 10, 68], [13, 10, 48, 13, 10, 13, 10]]).2.1
        [65] [[66, 67], [68]] (by simp [FitsMemory]) (by decide +kernel)
    have hmiddle : NoDataBehindEmpty [[65], [66, 67], [68]] := by simp [NoDataBehindEmpty]
    exact ⟨hserver.mpr hmiddle, hclient.mpr hmiddle⟩

/-- A chunk without data in the middle of a file is taken for its end, and a size close to the end
of its range is not refused: `fffffffffffffffe` by the server, `7ffffffffffffffe` by the client. -/
theorem not_chunked :
    ¬ ServerDelivers [] [chunckedFile [65] [[], [66]]] [65, 66] ∧
      ¬ ClientDelivers (fun _ => []) [] [chunckedFile [65] [[], [66]]] [65, 66] ∧
      ¬ ServerSound [] [List.replicate 15 102 ++ [101, 13, 10, 65]] ∧
      ¬ ClientSound (fun _ => []) [] [55 :: List.replicate 14 102 ++ [101, 13, 10, 65]] := by
  have hfits : FitsMemory [[65], [], [66]] := by simp [FitsMemory]
  have hstream : [] ++ [chunckedFile [65] [[], [66]]].flatten =
      [[65], [], [66]].flatMap chunkWire ++ chunkWire [] := by
    rw [← chunckedFile_eq]
    simp
  have hdelivers := delivers_iff hfits (fun _ => []) [] _ hstream [65, 66]
  refine ⟨?_, ?_, fun h => ?_, fun h => ?_⟩
  · rw [hdelivers.1]
    decide
  · rw [hdelivers.2]
    decide
  · exact absurd (h 1).1 (by decide)
  · exact absurd (h 1).1 (by decide)

end Yalantinglibs.Cinatra
