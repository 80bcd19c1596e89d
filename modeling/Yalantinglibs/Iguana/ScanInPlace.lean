import Yalantinglibs.Iguana.JsonView
import Yalantinglibs.Iguana.XmlUtil

/-!
# The scanners on a buffer

The scanners of iguana as they move over a buffer: they load eight bytes at the iterator as long as
it stands before `end - 7`, and single bytes then. A load behind the end is undefined; here it is
`none`, and no scanner comes to one.

## Main definitions

* `loadChunk` — a load of eight bytes
* `blocksInPlace`, `tailInPlace` — the two loops of a scanner
* `skipTillEscapeOrQouteInPlace` and its like — the scanners
* `byteScan` — the first byte to stop at, one after the other

## Main results

* `scanInPlace_eq` — a scanner is the scan of single bytes
* `scanTail_drop` — the scanners on the rest of a text are those on a buffer
* `scanners_exact` — where the scanners stop, and when they do not
-/

set_option autoImplicit false

namespace Yalantinglibs.Iguana

open ByteCodec ByteSearch

/-! ### The tests of a chunk -/

/-- `has_qoute`. -/
def hasQoute (chunk : ℕ) : ℕ :=
  hasZeroByte (chunk ^^^ 0b0010001000100010001000100010001000100010001000100010001000100010)

/-- `has_escape`. -/
def hasEscape (chunk : ℕ) : ℕ :=
  hasZeroByte (chunk ^^^ 0b0101110001011100010111000101110001011100010111000101110001011100)

/-- `has_greater`. -/
def hasGreater (chunk : ℕ) : ℕ :=
  hasZeroByte (chunk ^^^ 0b0011111000111110001111100011111000111110001111100011111000111110)

/-- `has_space`. -/
def hasSpace (chunk : ℕ) : ℕ :=
  hasZeroByte (chunk ^^^ 0b0010000000100000001000000010000000100000001000000010000000100000)

/-- `has_smaller`. -/
def hasSmaller (chunk : ℕ) : ℕ :=
  hasZeroByte (chunk ^^^ 0b0011110000111100001111000011110000111100001111000011110000111100)

/-- `has_square_bracket`. -/
def hasSquareBracket (chunk : ℕ) : ℕ :=
  hasZeroByte (chunk ^^^ 0b0101110101011101010111010101110101011101010111010101110101011101)

/-- `has_and`. -/
def hasAnd (chunk : ℕ) : ℕ :=
  hasZeroByte (chunk ^^^ 0b0010011000100110001001100010011000100110001001100010011000100110)

/-- `has_equal`. -/
def hasEqual (chunk : ℕ) : ℕ :=
  hasZeroByte (chunk ^^^ 0b0011110100111101001111010011110100111101001111010011110100111101)

/-- `has_apos`. -/
def hasApos (chunk : ℕ) : ℕ :=
  hasZeroByte (chunk ^^^ 0b0010011100100111001001110010011100100111001001110010011100100111)

/-- The code of `']'`. -/
def squareBracket : UInt8 := 0x5D

/-! The literals repeat the code of their character. -/

theorem hasQoute_eq : hasQoute = hasByteOf quote := rfl

theorem hasEscape_eq : hasEscape = hasByteOf backslash := rfl

theorem hasGreater_eq : hasGreater = hasByteOf greater := rfl

theorem hasSpace_eq : hasSpace = hasByteOf space := rfl

theorem hasSmaller_eq : hasSmaller = hasByteOf smaller := rfl

theorem hasSquareBracket_eq : hasSquareBracket = hasByteOf squareBracket := rfl

theorem hasAnd_eq : hasAnd = hasByteOf ampersand := rfl

theorem hasEqual_eq : hasEqual = hasByteOf equal := rfl

theorem hasApos_eq : hasApos = hasByteOf apos := rfl

/-! ### The loops -/

/-- A load of eight bytes at the iterator: nothing if one of them is behind the end. -/
def loadChunk (buf : Bytes) (it : ℕ) : Option ℕ :=
  if it + 8 ≤ buf.length then some (ofLE ((buf.drop it).take 8)) else none

/-- The loop over the chunks in front of `end - 7`: where it ends, and whether it returns there. -/
def blocksInPlace (test : ℕ → ℕ) (buf : Bytes) (it : ℕ) : Option (ℕ × Bool) :=
  if it < buf.length - 7 then
    (loadChunk buf it).bind fun chunk =>
      if test chunk ≠ 0 then some (it + countrZero 64 (test chunk) >>> 3, true)
      else blocksInPlace test buf (it + 8)
  else some (it, false)
termination_by buf.length - it

/-- The loop over single bytes. -/
def tailInPlace (stop : UInt8 → Bool) (buf : Bytes) (it : ℕ) : Option (ℕ × Bool) :=
  if it < buf.length then
    buf[it]?.bind fun c => if stop c then some (it, true) else tailInPlace stop buf (it + 1)
  else some (it, false)
termination_by buf.length - it

/-- A scanner: where the iterator is at the end, and whether it stands before one of the bytes that
are searched for. -/
def scanInPlace (test : ℕ → ℕ) (stop : UInt8 → Bool) (buf : Bytes) (it : ℕ) : Option (ℕ × Bool) :=
  (if 7 ≤ buf.length - it then blocksInPlace test buf it else some (it, false)).bind fun p =>
    if p.2 then some p else tailInPlace stop buf p.1

/-- A scanner that throws at the end. -/
def skipInPlace (test : ℕ → ℕ) (stop : UInt8 → Bool) (msg : String) (buf : Bytes) (it : ℕ) :
    Option (Except Fault ℕ) :=
  (scanInPlace test stop buf it).map fun p => if p.2 then .ok p.1 else raise msg

/-! ### The scanners -/

/-- `skip_till_escape_or_qoute`. -/
def skipTillEscapeOrQouteInPlace : Bytes → ℕ → Option (Except Fault ℕ) :=
  skipInPlace (fun chunk => hasQoute chunk ||| hasEscape chunk) isEscapeOrQoute "Expected \""

/-- `skip_till_qoute`. -/
def skipTillQouteInPlace : Bytes → ℕ → Option (Except Fault ℕ) :=
  skipInPlace hasQoute (fun c => c = quote) "Expected \""

/-- The characters of `skip_till`, with their tests: for another one it does not compile. -/
def skipTillTests : List (UInt8 × (ℕ → ℕ)) :=
  [(greater, hasGreater), (smaller, hasSmaller), (quote, hasQoute), (space, hasSpace),
    (squareBracket, hasSquareBracket), (equal, hasEqual), (apos, hasApos)]

/-- `skip_till<c>`, with the test of its character. -/
def skipTillInPlace (c : UInt8) (test : ℕ → ℕ) : Bytes → ℕ → Option (Except Fault ℕ) :=
  skipInPlace test (fun d => d = c) ("Expected: " ++ String.singleton (Char.ofNat c.toNat))

/-- Where `skip_till_greater_or_space` stops. -/
def isGreaterOrSpace (c : UInt8) : Bool := c = greater || c = space

/-- `skip_till_greater_or_space`. -/
def skipTillGreaterOrSpaceInPlace : Bytes → ℕ → Option (Except Fault ℕ) :=
  skipInPlace (fun chunk => hasGreater chunk ||| hasSpace chunk) isGreaterOrSpace
    "Expected > or space"

/-- `advance_until_character<'&'>`: where the iterator is at the end, and what is returned. -/
def advanceUntilAmpersandInPlace : Bytes → ℕ → Option (ℕ × Bool) :=
  scanInPlace hasAnd fun c => c = ampersand

/-! ### The scan of single bytes -/

section ByteScan

variable {stop : UInt8 → Bool} {test : ℕ → ℕ} {buf : Bytes} {it : ℕ}

/-- The position of the first byte to stop at, from the iterator on. -/
def byteScan (stop : UInt8 → Bool) (buf : Bytes) (it : ℕ) : Option ℕ :=
  ((buf.drop it).findIdx? stop).map (it + ·)

/-- What is not searched for is passed over. -/
theorem byteScan_add (n : ℕ) (h : ∀ c ∈ (buf.drop it).take n, stop c = false)
    (hn : it + n ≤ buf.length) : byteScan stop buf it = byteScan stop buf (it + n) := by
  have hlen : ((buf.drop it).take n).length = n := by
    rw [List.length_take, List.length_drop]
    omega
  have hsplit : buf.drop it = (buf.drop it).take n ++ buf.drop (it + n) := by
    rw [← List.drop_drop, List.take_append_drop]
  rw [byteScan, hsplit, List.findIdx?_append, List.findIdx?_eq_none_iff.mpr h, Option.none_or, hlen,
    byteScan, Option.map_map]
  apply congrArg (Option.map · _)
  funext i
  rw [Function.comp_apply]
  omega

/-- One of the bytes of a chunk is searched for. -/
theorem byteScan_eq_some (n : ℕ) (h : ∃ c ∈ (buf.drop it).take n, stop c = true) :
    byteScan stop buf it = some (it + ((buf.drop it).take n).findIdx stop) := by
  have hsplit : buf.drop it = (buf.drop it).take n ++ buf.drop (it + n) := by
    rw [← List.drop_drop, List.take_append_drop]
  have hfind : ((buf.drop it).take n).findIdx? stop = some (((buf.drop it).take n).findIdx stop) :=
    List.findIdx?_eq_some_of_exists h
  rw [byteScan]
  conv_lhs => rw [hsplit]
  rw [List.findIdx?_append, hfind]
  rfl

theorem byteScan_of_length_le (h : buf.length ≤ it) : byteScan stop buf it = none := by
  rw [byteScan, List.drop_eq_nil_of_le h]
  rfl

theorem byteScan_eq_some_iff {p : ℕ} :
    byteScan stop buf it = some p ↔
      it ≤ p ∧ (∃ c, buf[p]? = some c ∧ stop c = true) ∧
        ∀ j, it ≤ j → j < p → ∀ c, buf[j]? = some c → stop c = false := by
  rw [byteScan, Option.map_eq_some_iff]
  constructor
  · rintro ⟨i, hi, rfl⟩
    obtain ⟨hlt, hstop, hbefore⟩ := List.findIdx?_eq_some_iff_getElem.mp hi
    rw [List.getElem_drop] at hstop
    rw [List.length_drop] at hlt
    refine ⟨Nat.le_add_right it i, ⟨_, List.getElem?_eq_getElem (by omega), hstop⟩, ?_⟩
    intro j hit hj c hc
    obtain ⟨k, rfl⟩ := Nat.exists_eq_add_of_le hit
    obtain ⟨hk, rfl⟩ := List.getElem?_eq_some_iff.mp hc
    have hnot := hbefore k (by omega)
    rw [List.getElem_drop] at hnot
    simpa using hnot
  · rintro ⟨hit, ⟨c, hc, hstop⟩, hbefore⟩
    obtain ⟨i, rfl⟩ := Nat.exists_eq_add_of_le hit
    obtain ⟨hi, rfl⟩ := List.getElem?_eq_some_iff.mp hc
    refine ⟨i, List.findIdx?_eq_some_iff_getElem.mpr ⟨?_, ?_, ?_⟩, rfl⟩
    · rw [List.length_drop]
      omega
    · rwa [List.getElem_drop]
    · intro j hj
      rw [List.getElem_drop, Bool.not_eq_true]
      exact hbefore (it + j) (Nat.le_add_right it j) (by omega) _ (List.getElem?_eq_getElem (by omega))

theorem byteScan_eq_none_iff :
    byteScan stop buf it = none ↔ ∀ j, it ≤ j → ∀ c, buf[j]? = some c → stop c = false := by
  rw [byteScan, Option.map_eq_none_iff, List.findIdx?_eq_none_iff]
  constructor
  · intro h j hit c hc
    obtain ⟨k, rfl⟩ := Nat.exists_eq_add_of_le hit
    apply h
    rw [List.mem_iff_getElem?]
    exact ⟨k, by rw [List.getElem?_drop, hc]⟩
  · intro h c hc
    obtain ⟨k, hk⟩ := List.mem_iff_getElem?.mp hc
    rw [List.getElem?_drop] at hk
    exact h (it + k) (Nat.le_add_right it k) c hk

/-- The scanners on the rest of a text are those on a buffer. -/
theorem scanTail_drop (stop : UInt8 → Bool) (buf : Bytes) (it : ℕ) :
    scanTail stop (buf.drop it) = (byteScan stop buf it).map buf.drop := by
  induction hrest : buf.drop it generalizing it with
  | nil => rw [byteScan, hrest]; rfl
  | cons c rest ih =>
    have hnext : buf.drop (it + 1) = rest := by rw [← List.drop_drop, hrest]; rfl
    rw [scanTail, byteScan, hrest, List.findIdx?_cons]
    cases hc : stop c with
    | true =>
      rw [if_pos rfl, if_pos rfl]
      exact congrArg some hrest.symm
    | false =>
      rw [if_neg Bool.false_ne_true, if_neg Bool.false_ne_true, ih (it + 1) hnext, byteScan, hnext,
        Option.map_map, Option.map_map, Option.map_map]
      apply congrArg (Option.map · _)
      funext i
      rw [Function.comp_apply, Function.comp_apply, Function.comp_apply, Nat.add_assoc,
        Nat.add_comm 1]

/-- The bytes from the iterator on, one after the other. -/
theorem tailInPlace_eq (stop : UInt8 → Bool) (buf : Bytes) (it : ℕ) :
    tailInPlace stop buf it =
      some (match byteScan stop buf it with
        | some p => (p, true)
        | none => (max it buf.length, false)) := by
  induction it using tailInPlace.induct buf with
  | case1 it hlt ih =>
    have htake : (buf.drop it).take 1 = [buf[it]] := by
      rw [List.drop_eq_getElem_cons hlt]
      rfl
    rw [tailInPlace, if_pos hlt, List.getElem?_eq_getElem hlt, Option.bind_some]
    cases hc : stop buf[it] with
    | true =>
      have hscan : byteScan stop buf it = some it := by
        rw [byteScan_eq_some 1 (by rw [htake]; exact ⟨_, List.mem_singleton_self _, hc⟩), htake,
          List.findIdx_cons, hc]
        rfl
      rw [if_pos rfl, hscan]
    | false =>
      have hscan : byteScan stop buf it = byteScan stop buf (it + 1) := by
        apply byteScan_add 1 _ hlt
        rw [htake]
        intro c hmem
        rw [List.mem_singleton.mp hmem, hc]
      rw [if_neg Bool.false_ne_true, ih, hscan, Nat.max_eq_right hlt, Nat.max_eq_right hlt.le]
  | case2 it hlt =>
    rw [tailInPlace, if_neg hlt, byteScan_of_length_le (Nat.le_of_not_lt hlt),
      Nat.max_eq_left (Nat.le_of_not_lt hlt)]

/-- The chunks: either one of their bytes is searched for, and it is the first, or the scan of
single bytes goes on where the loop ends. No chunk reaches behind the end. -/
theorem blocksInPlace_eq
    (htest : ∀ chunk : Bytes, chunk.length = 8 → Marks (chunk.map stop) (test (ofLE chunk)))
    (buf : Bytes) (it : ℕ) :
    (∃ p, blocksInPlace test buf it = some (p, true) ∧ byteScan stop buf it = some p) ∨
      ∃ j, blocksInPlace test buf it = some (j, false) ∧
        byteScan stop buf it = byteScan stop buf j ∧ max it buf.length = max j buf.length := by
  induction it using blocksInPlace.induct buf with
  | case1 it hlt ih =>
    -- the loop guard keeps the whole chunk in front of the end
    have hfits : it + 8 ≤ buf.length := by omega
    have hlen : ((buf.drop it).take 8).length = 8 := by
      rw [List.length_take, List.length_drop]
      omega
    have hmarks := htest _ hlen
    rw [blocksInPlace, if_pos hlt, loadChunk, if_pos hfits, Option.bind_some]
    by_cases hzero : test (ofLE ((buf.drop it).take 8)) = 0
    · have hnone : ∀ c ∈ (buf.drop it).take 8, stop c = false := by
        intro c hc
        by_contra hstop
        apply hmarks.eq_zero_iff.mp hzero
        exact List.mem_map.mpr ⟨c, hc, by simpa using hstop⟩
      have hmax : max it buf.length = max (it + 8) buf.length := by omega
      rw [if_neg (not_not.mpr hzero), byteScan_add 8 hnone hfits, hmax]
      exact ih
    · have hmem : true ∈ ((buf.drop it).take 8).map stop := by
        by_contra hnot
        exact hzero (hmarks.eq_zero_iff.mpr hnot)
      have hindex := hmarks.countrZero_eq hmem
      rw [List.findIdx_map, Function.id_comp, List.length_map, hlen] at hindex
      rw [if_pos hzero]
      exact .inl ⟨_, rfl, by rw [byteScan_eq_some 8 (List.mem_map.mp hmem), ← hindex]⟩
  | case2 it hlt =>
    rw [blocksInPlace, if_neg hlt]
    exact .inr ⟨it, rfl, rfl, rfl⟩

/-- A scanner is the scan of single bytes, and reads nothing behind the end. -/
theorem scanInPlace_eq
    (htest : ∀ chunk : Bytes, chunk.length = 8 → Marks (chunk.map stop) (test (ofLE chunk)))
    (buf : Bytes) (it : ℕ) :
    scanInPlace test stop buf it =
      some (match byteScan stop buf it with
        | some p => (p, true)
        | none => (max it buf.length, false)) := by
  rw [scanInPlace]
  split_ifs with hdist
  · obtain ⟨p, hblocks, hscan⟩ | ⟨j, hblocks, hscan, hend⟩ := blocksInPlace_eq htest buf it
    · rw [hblocks, hscan, Option.bind_some, if_pos rfl]
    · rw [hblocks, hscan, Option.bind_some, if_neg Bool.false_ne_true, hend]
      exact tailInPlace_eq stop buf j
  · rw [Option.bind_some, if_neg Bool.false_ne_true]
    exact tailInPlace_eq stop buf it

/-- A scanner that throws, on a buffer and on the rest of its text. -/
theorem skipInPlace_eq
    (htest : ∀ chunk : Bytes, chunk.length = 8 → Marks (chunk.map stop) (test (ofLE chunk)))
    (msg : String) (buf : Bytes) (it : ℕ) :
    skipInPlace test stop msg buf it =
      some (match scan test stop (buf.drop it) with
        | some rest => .ok (buf.length - rest.length)
        | none => raise msg) := by
  rw [skipInPlace, scanInPlace_eq htest, scan_eq htest, scanTail_drop]
  cases hscan : byteScan stop buf it with
  | none => rfl
  | some p =>
    obtain ⟨-, ⟨c, hc, -⟩, -⟩ := byteScan_eq_some_iff.mp hscan
    have hp : p < buf.length := (List.getElem?_eq_some_iff.mp hc).1
    have hback : buf.length - (buf.drop p).length = p := by
      rw [List.length_drop]
      omega
    rw [Option.map_some, Option.map_some]
    dsimp only
    rw [hback, if_pos rfl]

theorem skipTillEscapeOrQouteInPlace_eq (buf : Bytes) (it : ℕ) :
    skipTillEscapeOrQouteInPlace buf it =
      some ((skipTillEscapeOrQoute (buf.drop it)).map fun rest => buf.length - rest.length) := by
  rw [skipTillEscapeOrQouteInPlace, hasQoute_eq, hasEscape_eq,
    skipInPlace_eq fun chunk hlen => marks_or quote backslash hlen, skipTillEscapeOrQoute]
  generalize scan (fun chunk => hasByteOf quote chunk ||| hasByteOf backslash chunk) isEscapeOrQoute
    (buf.drop it) = r
  cases r <;> rfl

theorem skipTillQouteInPlace_eq (buf : Bytes) (it : ℕ) :
    skipTillQouteInPlace buf it =
      some ((skipTillQoute (buf.drop it)).map fun rest => buf.length - rest.length) := by
  rw [skipTillQouteInPlace, hasQoute_eq, skipInPlace_eq fun chunk hlen => marks_hasByteOf quote hlen,
    skipTillQoute]
  cases scan (hasByteOf quote) (fun c => c = quote) (buf.drop it) <;> rfl

theorem skipTillInPlace_eq (c : UInt8) (buf : Bytes) (it : ℕ) :
    skipTillInPlace c (hasByteOf c) buf it =
      some ((skipTill c (buf.drop it)).map fun rest => buf.length - rest.length) := by
  rw [skipTillInPlace, skipInPlace_eq fun chunk hlen => marks_hasByteOf c hlen, skipTill]
  cases scan (hasByteOf c) (fun d => d = c) (buf.drop it) <;> rfl

end ByteScan

/-! ### Where the scanners stop -/

section Exact

variable (stop : UInt8 → Bool) (buf : Bytes) (it : ℕ)

/-- The first byte to stop at, from the iterator on, is at `p`. -/
def FirstStop (p : ℕ) : Prop :=
  it ≤ p ∧ (∃ c, buf[p]? = some c ∧ stop c = true) ∧
    ∀ j, it ≤ j → j < p → ∀ c, buf[j]? = some c → stop c = false

/-- There is no byte to stop at from the iterator on. -/
def NoStop : Prop := ∀ j, it ≤ j → ∀ c, buf[j]? = some c → stop c = false

/-- A scanner that throws at the end is exact: it reads nothing behind the end, stops where the
first byte is, and throws if there is none. -/
def SkipExact (r : Option (Except Fault ℕ)) : Prop :=
  r ≠ none ∧ (∀ p, r = some (.ok p) ↔ FirstStop stop buf it p) ∧
    ((∃ e, r = some (.error e)) ↔ NoStop stop buf it)

/-- A scanner that returns whether it found something is exact. -/
def AdvanceExact (r : Option (ℕ × Bool)) : Prop :=
  r ≠ none ∧ (∀ p, r = some (p, true) ↔ FirstStop stop buf it p) ∧
    ((∃ p, r = some (p, false)) ↔ NoStop stop buf it)

variable {stop}
variable {test : ℕ → ℕ}

theorem advanceExact_scanInPlace
    (htest : ∀ chunk : Bytes, chunk.length = 8 → Marks (chunk.map stop) (test (ofLE chunk))) :
    AdvanceExact stop buf it (scanInPlace test stop buf it) := by
  rw [scanInPlace_eq htest]
  refine ⟨Option.some_ne_none _, fun p => ?_, ?_⟩
  · rw [FirstStop, ← byteScan_eq_some_iff]
    cases byteScan stop buf it <;> simp
  · rw [NoStop, ← byteScan_eq_none_iff]
    cases byteScan stop buf it <;> simp

theorem skipExact_skipInPlace
    (htest : ∀ chunk : Bytes, chunk.length = 8 → Marks (chunk.map stop) (test (ofLE chunk)))
    (msg : String) : SkipExact stop buf it (skipInPlace test stop msg buf it) := by
  obtain ⟨hread, hfound, hend⟩ := advanceExact_scanInPlace buf it htest
  rw [skipInPlace]
  cases hscan : scanInPlace test stop buf it with
  | none => exact absurd hscan hread
  | some r =>
    obtain ⟨p, found⟩ := r
    rw [hscan] at hfound hend
    refine ⟨Option.some_ne_none _, fun q => ?_, ?_⟩
    · rw [← hfound q]
      cases found <;> simp [raise]
    · rw [← hend]
      cases found <;> simp [raise]

/-- The scanners for one character. -/
theorem skipExact_of_char (c : UInt8) (msg : String) :
    SkipExact (fun d => d = c) buf it (skipInPlace (hasByteOf c) (fun d => d = c) msg buf it) :=
  skipExact_skipInPlace buf it (fun _ hlen => marks_hasByteOf c hlen) msg

/-- Every `skip_till<c>` tests its chunks for its own character. -/
theorem snd_eq_of_mem_skipTillTests {c : UInt8} (h : (c, test) ∈ skipTillTests) :
    test = hasByteOf c := by
  simp only [skipTillTests, List.mem_cons, Prod.mk.injEq, List.not_mem_nil, or_false] at h
  obtain ⟨rfl, rfl⟩ | ⟨rfl, rfl⟩ | ⟨rfl, rfl⟩ | ⟨rfl, rfl⟩ | ⟨rfl, rfl⟩ | ⟨rfl, rfl⟩ | ⟨rfl, rfl⟩ := h
  · exact hasGreater_eq
  · exact hasSmaller_eq
  · exact hasQoute_eq
  · exact hasSpace_eq
  · exact hasSquareBracket_eq
  · exact hasEqual_eq
  · exact hasApos_eq

/-- The scanners stop at the first of their bytes, and throw or return `false` if there is none;
nothing behind the end is read. -/
theorem scanners_exact :
    SkipExact isEscapeOrQoute buf it (skipTillEscapeOrQouteInPlace buf it) ∧
      SkipExact (fun c => c = quote) buf it (skipTillQouteInPlace buf it) ∧
      (∀ ct ∈ skipTillTests,
        SkipExact (fun c => c = ct.1) buf it (skipTillInPlace ct.1 ct.2 buf it)) ∧
      SkipExact isGreaterOrSpace buf it (skipTillGreaterOrSpaceInPlace buf it) ∧
      AdvanceExact (fun c => c = ampersand) buf it (advanceUntilAmpersandInPlace buf it) := by
  refine ⟨?_, ?_, ?_, ?_, ?_⟩
  · apply skipExact_skipInPlace
    intro chunk hlen
    exact marks_or quote backslash hlen
  · exact skipExact_of_char buf it quote _
  · intro ct hct
    rw [skipTillInPlace, snd_eq_of_mem_skipTillTests hct]
    exact skipExact_of_char buf it ct.1 _
  · apply skipExact_skipInPlace
    intro chunk hlen
    exact marks_or greater space hlen
  · apply advanceExact_scanInPlace
    intro chunk hlen
    exact marks_hasByteOf ampersand hlen

end Exact

end Yalantinglibs.Iguana
