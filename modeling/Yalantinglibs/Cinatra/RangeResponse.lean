import Yalantinglibs.Cinatra.CoroHttpConnection
import Yalantinglibs.Cinatra.RequestHeader

/-!
# Answers to requests for ranges of a file

The branch of `set_static_res_dir` in `coro_http_server.hpp` that writes ranges of a file: a single
one as it is, and several as the parts of a multipart body. The length in the header is computed
before the body is written, and the body is read and written in chunks.

The pairs are those of `parse_ranges`, each of which is taken to lie in the file. Their arithmetic
is that of `int`, whose overflow is undefined.

## Main definitions

* `StaticFile`, `ByteRange` — the file, and a range that lies in it
* `rangeResponse` — the header and what is written behind it, `none` where the code has no behaviour
* `multipartBody` — the body that several ranges should have
* `Framed` — the header announces the body, and the body is that of the ranges

## Main results

* `writeParts_eq` — what is written for several ranges that fit a chunk each
* `rangesFramed_iff` — when a response is framed
-/

set_option autoImplicit false

namespace Yalantinglibs.Cinatra

/-- `BOUNDARY`, which the client uses as well. -/
def boundary : Bytes := clientBoundary

/-- `MULTIPART_END`. -/
def multipartEnd : Bytes := crcf ++ ascii "--" ++ boundary ++ ascii "--" ++ crcf

/-- A file of the static directory. -/
structure StaticFile where
  name : Bytes
  mime : Bytes
  content : Bytes
  deriving DecidableEq, Repr

/-- A range of a file, the last byte included. -/
structure ByteRange (size : ℕ) where
  first : ℕ
  last : ℕ
  first_le : first ≤ last
  last_lt : last < size
  last_int : last < 2 ^ 31
  deriving DecidableEq, Repr

namespace ByteRange

variable {size : ℕ} (r : ByteRange size)

/-- `end + 1 - start`. -/
def partSize : ℕ := r.last + 1 - r.first

theorem partSize_pos : 0 < r.partSize := by
  have hle := r.first_le
  rw [partSize]
  omega

/-- `first-last/size`. -/
def text : Bytes :=
  toCharsDec r.first ++ ascii "-" ++ toCharsDec r.last ++ ascii "/" ++ toCharsDec size

end ByteRange

namespace StaticFile

variable (f : StaticFile)

/-- The ranges of a file. -/
abbrev Range : Type := ByteRange f.content.length

/-- The bytes of a range. -/
def slice (r : f.Range) : Bytes := (f.content.take (r.last + 1)).drop r.first

/-! ### Headers -/

/-- `build_range_header`. -/
def buildRangeHeader (length : Bytes) (status : ℕ) (contentRange : Bytes) : Bytes :=
  ascii "HTTP/1.1 " ++ toCharsDec status ++
    ascii " OK\r\nAccess-Control-Allow-origin: *\r\nAccept-Ranges: bytes\r\n" ++ contentRange ++
    ascii "Content-Disposition: attachment;filename=" ++ f.name ++ crcf ++
    ascii "Connection: keep-alive\r\n" ++ ascii "Content-Type: " ++ f.mime ++ crcf ++
    ascii "Content-Length: " ++ length ++ twoCrcf

/-- `build_multiple_range_header`. -/
def buildMultipleRangeHeader (contentLen : ℕ) : Bytes :=
  ascii "HTTP/1.1 206 Partial Content\r\n" ++ ascii "Content-Length: " ++ toCharsDec contentLen ++
    crcf ++ ascii "Content-Type: multipart/byteranges; boundary=" ++ boundary ++ twoCrcf

/-- The head of a part. -/
def partHead (r : f.Range) : Bytes :=
  ascii "--" ++ boundary ++ crcf ++ ascii "Content-Type: " ++ f.mime ++ crcf ++
    ascii "Content-Range: " ++ ascii "bytes " ++ r.text ++ twoCrcf

/-- The length that `build_part_heads` computes: for each part its head, its bytes and the end of a
line, and then what ends the body. -/
def contentLen (ranges : List f.Range) : ℕ :=
  (ranges.map fun r => (f.partHead r).length + (r.partSize + crcf.length)).sum +
    (boundary.length + 4)

/-! ### Bodies -/

/-- `send_single_part`, with what the file has from its position on. Each chunk has `more` behind
it. -/
def sendSinglePart (chunkedSize : ℕ) (more : Bytes) (partSize : ℕ) (inFile : Bytes) : Bytes :=
  let readSize := min partSize chunkedSize
  if readSize = 0 then []
  else
    inFile.take readSize ++ more ++
      sendSinglePart chunkedSize more (partSize - readSize) (inFile.drop readSize)
termination_by partSize

/-- The loop over several ranges. -/
def writeParts (chunkedSize : ℕ) : List f.Range → Bytes
  | [] => []
  | r :: ranges =>
    let more := if ranges = [] then multipartEnd else crcf
    f.partHead r ++ sendSinglePart chunkedSize more r.partSize (f.content.drop r.first) ++
      writeParts chunkedSize ranges

/-- The `Content-Range` line of a single range. -/
def contentRangeLine (r : f.Range) : Bytes := ascii "Content-Range: bytes " ++ r.text ++ crcf

/-- A single range that is the whole file is answered as such. -/
def singleStatus (r : f.Range) : ℕ := if r.partSize = f.content.length then 200 else 206

/-- The header and what is written behind it. -/
def rangeResponse (chunkedSize : ℕ) (ranges : List f.Range) : Option (Bytes × Bytes) :=
  if ∀ r ∈ ranges, r.last + 1 < 2 ^ 31 then
    match ranges with
    | [r] =>
      some (f.buildRangeHeader (toCharsDec r.partSize) (f.singleStatus r) (f.contentRangeLine r),
        sendSinglePart chunkedSize [] r.partSize (f.content.drop r.first))
    | ranges =>
      some (buildMultipleRangeHeader (f.contentLen ranges), f.writeParts chunkedSize ranges)
  else none

/-! ### What is to be written -/

/-- A multipart body: each part behind a delimiter, and one that ends the body behind the last. -/
def multipartBody (ranges : List f.Range) : Bytes :=
  crcf.intercalate (ranges.map fun r => f.partHead r ++ f.slice r) ++
    crcf ++ ascii "--" ++ boundary ++ ascii "--"

/-- The header announces as many bytes as are written behind it, and these are the range, or a
multipart body of the ranges. Behind the end of such a body a line may be ended. -/
def Framed (chunkedSize : ℕ) (ranges : List f.Range) : Prop :=
  ∃ header body, f.rangeResponse chunkedSize ranges = some (header, body) ∧
    match ranges with
    | [r] =>
      header = f.buildRangeHeader (toCharsDec body.length) (f.singleStatus r)
        (f.contentRangeLine r) ∧ body = f.slice r
    | ranges => header = buildMultipleRangeHeader body.length ∧
      (body = f.multipartBody ranges ∨ body = f.multipartBody ranges ++ crcf)

/-! ### Chunks -/

section Chunks

variable {chunkedSize partSize : ℕ} {more inFile : Bytes}

theorem sendSinglePart_succ (hchunk : 0 < chunkedSize) (hpart : 0 < partSize) :
    sendSinglePart chunkedSize more partSize inFile =
      inFile.take (min partSize chunkedSize) ++ more ++
        sendSinglePart chunkedSize more (partSize - min partSize chunkedSize)
          (inFile.drop (min partSize chunkedSize)) := by
  rw [sendSinglePart]
  exact if_neg (by omega)

theorem sendSinglePart_zero : sendSinglePart chunkedSize more 0 inFile = [] := by
  rw [sendSinglePart, Nat.zero_min]
  rfl

/-- Without a text behind each chunk, the chunks are the part. -/
theorem sendSinglePart_nil (hchunk : 0 < chunkedSize) (partSize : ℕ) (inFile : Bytes) :
    sendSinglePart chunkedSize [] partSize inFile = inFile.take partSize := by
  induction partSize using Nat.strong_induction_on generalizing inFile with
  | _ partSize ih =>
    obtain rfl | hpart := Nat.eq_zero_or_pos partSize
    · rw [sendSinglePart_zero, List.take_zero]
    · rw [sendSinglePart_succ hchunk hpart, List.append_nil, ih _ (by omega), ← List.take_add,
        Nat.add_sub_cancel' (Nat.min_le_left _ _)]

/-- A part that fits a chunk is written once, with the text behind it. -/
theorem sendSinglePart_of_le (hpart : 0 < partSize) (hle : partSize ≤ chunkedSize) :
    sendSinglePart chunkedSize more partSize inFile = inFile.take partSize ++ more := by
  rw [sendSinglePart_succ (by omega) hpart, min_eq_left hle, Nat.sub_self, sendSinglePart_zero,
    List.append_nil]

/-- A part has the text behind it at least once. -/
theorem le_length_sendSinglePart (more : Bytes) (hchunk : 0 < chunkedSize) (hpart : 0 < partSize)
    (hfile : partSize ≤ inFile.length) :
    partSize + more.length ≤ (sendSinglePart chunkedSize more partSize inFile).length := by
  induction partSize using Nat.strong_induction_on generalizing inFile with
  | _ partSize ih =>
    rw [sendSinglePart_succ hchunk hpart, List.length_append, List.length_append, List.length_take,
      min_eq_left (by omega)]
    by_cases hle : partSize ≤ chunkedSize
    · rw [min_eq_left hle]
      omega
    · have hrest : partSize - min partSize chunkedSize + more.length ≤
          (sendSinglePart chunkedSize more (partSize - min partSize chunkedSize)
            (inFile.drop (min partSize chunkedSize))).length :=
        ih _ (by omega) (by omega) (by rw [List.length_drop]; omega)
      omega

end Chunks

/-! ### Several ranges -/

section Parts

variable {f} {chunkedSize : ℕ}

theorem length_drop_first (r : f.Range) : r.partSize ≤ (f.content.drop r.first).length := by
  have hlt := r.last_lt
  rw [List.length_drop, ByteRange.partSize]
  omega

theorem take_partSize (r : f.Range) : (f.content.drop r.first).take r.partSize = f.slice r := by
  have hle := r.first_le
  rw [slice, List.drop_take, ByteRange.partSize]

theorem length_slice (r : f.Range) : (f.slice r).length = r.partSize := by
  rw [← take_partSize, List.length_take, min_eq_left (length_drop_first r)]

theorem length_multipartEnd : multipartEnd.length = boundary.length + 8 := by decide

/-- More bytes are written than the length says, by two at least. -/
theorem contentLen_lt (hchunk : 0 < chunkedSize) {ranges : List f.Range} (hne : ranges ≠ []) :
    f.contentLen ranges + 2 ≤ (f.writeParts chunkedSize ranges).length := by
  have hcrcf : crcf.length = 2 := rfl
  induction ranges with
  | nil => exact absurd rfl hne
  | cons r ranges ih =>
    have hend := le_length_sendSinglePart multipartEnd hchunk r.partSize_pos
      (length_drop_first r)
    have hline := le_length_sendSinglePart crcf hchunk r.partSize_pos
      (length_drop_first r)
    rw [contentLen, writeParts, List.map_cons, List.sum_cons, List.length_append,
      List.length_append]
    rw [length_multipartEnd] at hend
    by_cases hlast : ranges = []
    · rw [if_pos hlast, hlast, List.map_nil, List.sum_nil, writeParts, List.length_nil]
      omega
    · have hrest := ih hlast
      rw [contentLen] at hrest
      rw [if_neg hlast]
      omega

/-- Ranges that fit a chunk each are written as a multipart body with the end of a line behind it,
which the length does not count. -/
theorem writeParts_eq {ranges : List f.Range} (hne : ranges ≠ [])
    (hle : ∀ r ∈ ranges, r.partSize ≤ chunkedSize) :
    f.writeParts chunkedSize ranges = f.multipartBody ranges ++ crcf ∧
      f.contentLen ranges + 2 = (f.writeParts chunkedSize ranges).length := by
  have hpart : ∀ r ∈ ranges, ∀ more, sendSinglePart chunkedSize more r.partSize
      (f.content.drop r.first) = f.slice r ++ more := by
    intro r hr more
    rw [sendSinglePart_of_le r.partSize_pos (hle r hr), take_partSize]
  induction ranges with
  | nil => exact absurd rfl hne
  | cons r ranges ih =>
    have hsend := hpart r List.mem_cons_self
    rw [writeParts, hsend]
    cases ranges with
    | nil =>
      constructor
      · simp [multipartBody, multipartEnd, writeParts, List.intercalate]
      · rw [if_pos rfl, List.length_append, List.length_append, List.length_append,
          length_multipartEnd, length_slice, contentLen, List.map_singleton, List.sum_singleton]
        have hcrcf : crcf.length = 2 := rfl
        rw [writeParts, List.length_nil]
        omega
    | cons r' ranges =>
      obtain ⟨hbody, hlen⟩ := ih (List.cons_ne_nil _ _) (fun q hq => hle q (.tail r hq))
        (fun q hq => hpart q (.tail r hq))
      constructor
      · rw [if_neg (List.cons_ne_nil _ _), hbody]
        simp only [multipartBody, List.map_cons, List.intercalate_cons_cons, List.append_assoc]
      · rw [if_neg (List.cons_ne_nil _ _), List.length_append, ← hlen, contentLen, contentLen,
          List.map_cons, List.sum_cons, List.length_append, List.length_append, length_slice]
        omega

end Parts

/-! ### Framing -/

section Framing

variable {f} {chunkedSize : ℕ} {ranges : List f.Range}

theorem toCharsDec_injective : Function.Injective toCharsDec := by
  intro n n' h
  rw [← decimalValue_toCharsDec n, h, decimalValue_toCharsDec]

theorem buildMultipleRangeHeader_inj {n n' : ℕ} :
    buildMultipleRangeHeader n = buildMultipleRangeHeader n' → n = n' := by
  intro h
  simp only [buildMultipleRangeHeader, List.append_cancel_right_eq, List.append_cancel_left_eq] at h
  exact toCharsDec_injective h

theorem defined_of_rangeResponse {response : Bytes × Bytes}
    (h : f.rangeResponse chunkedSize ranges = some response) :
    ∀ r ∈ ranges, r.last + 1 < 2 ^ 31 := by
  by_contra hnot
  unfold rangeResponse at h
  rw [if_neg hnot] at h
  cases h

theorem rangeResponse_single {r : f.Range} (hchunk : 0 < chunkedSize) (h : r.last + 1 < 2 ^ 31) :
    f.rangeResponse chunkedSize [r] =
      some (f.buildRangeHeader (toCharsDec (f.slice r).length) (f.singleStatus r)
        (f.contentRangeLine r), f.slice r) := by
  have hdefined : ∀ q ∈ [r], q.last + 1 < 2 ^ 31 := by
    intro q hq
    rwa [List.mem_singleton.mp hq]
  rw [rangeResponse, if_pos hdefined, sendSinglePart_nil hchunk, take_partSize, length_slice]

theorem rangeResponse_several (chunkedSize : ℕ) {r r' : f.Range}
    (hdefined : ∀ q ∈ r :: r' :: ranges, q.last + 1 < 2 ^ 31) :
    f.rangeResponse chunkedSize (r :: r' :: ranges) =
      some (buildMultipleRangeHeader (f.contentLen (r :: r' :: ranges)),
        f.writeParts chunkedSize (r :: r' :: ranges)) := by
  unfold rangeResponse
  rw [if_pos hdefined]

/-- Of two ranges or more, the length is short of what is written. -/
theorem not_framed_several (hchunk : 0 < chunkedSize) (r r' : f.Range) (others : List f.Range) :
    ¬ f.Framed chunkedSize (r :: r' :: others) := by
  rintro ⟨header, body, hresponse, hframed⟩
  have hwritten := rangeResponse_several chunkedSize (defined_of_rangeResponse hresponse)
  obtain ⟨rfl, rfl⟩ := Prod.mk.inj (Option.some.inj (hwritten.symm.trans hresponse))
  have hlen := buildMultipleRangeHeader_inj hframed.1
  have hlt := contentLen_lt (f := f) hchunk (List.cons_ne_nil r (r' :: others))
  omega

/-- A response is framed if it is for a single range whose end can be moved by one. -/
theorem rangesFramed_iff (hchunk : 0 < chunkedSize) (hne : ranges ≠ []) :
    f.Framed chunkedSize ranges ↔ ∃ r, ranges = [r] ∧ r.last + 1 < 2 ^ 31 := by
  constructor
  · intro hframed
    obtain ⟨r, others, rfl⟩ := List.exists_cons_of_ne_nil hne
    cases others with
    | nil =>
      obtain ⟨_, _, hresponse, -⟩ := hframed
      exact ⟨r, rfl, defined_of_rangeResponse hresponse r List.mem_cons_self⟩
    | cons r' others => exact absurd hframed (not_framed_several hchunk r r' others)
  · rintro ⟨r, rfl, hlast⟩
    exact ⟨_, _, rangeResponse_single hchunk hlast, rfl, rfl⟩

end Framing

/-- `abc`. -/
def smallFile : StaticFile where
  name := ascii "a.txt"
  mime := ascii "text/plain"
  content := [97, 98, 99]

theorem framed_smallFile : smallFile.Framed 10240 [⟨1, 2, by decide, by decide, by decide⟩] :=
  (rangesFramed_iff (by decide) (List.cons_ne_nil _ _)).mpr ⟨_, rfl, by decide⟩

/-- The ranges `0-0` and `2-2` of a file of three bytes. -/
theorem not_framed_smallFile :
    ¬ smallFile.Framed 10240
      [⟨0, 0, by decide, by decide, by decide⟩, ⟨2, 2, by decide, by decide, by decide⟩] :=
  not_framed_several (by decide) _ _ []

end StaticFile

end Yalantinglibs.Cinatra
