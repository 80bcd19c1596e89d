import Yalantinglibs.Data.StepLoop
import Yalantinglibs.StructPack.Unpacker

/-!
# Containers from a stream

A reader without `check()` cannot tell whether the elements of a trivially copyable container are
all there. `deserialize_one` then makes room for a block of elements after the other, a megabyte of
them at most, and reads each before the next; with `check()` it makes room for all of them and reads
them at once.

The container is its storage here, a number of bytes for each element.

## Main definitions

* `blockBody`, `StreamEnds` — the loop over the blocks
* `decodeChecked` — with a `memory_reader`
* `Agrees` — the loop ends, and as with a `memory_reader`

## Main results

* `agrees_iff` — when it does
* `deserializeElements_eq` — the `memory_reader` of the other modules
-/

set_option autoImplicit false

namespace Yalantinglibs.StructPack

open ByteCodec Decoding

/-- A byte string in memory; the distance of its ends is a `std::ptrdiff_t`. -/
structure Buffer where
  bytes : Bytes
  length_lt : bytes.length < 2 ^ 63

/-- `SIZE_MAX`. -/
def SIZE_MAX : ℕ := 2 ^ 64 - 1

/-- `STRUCT_PACK_MAX_UNCONFIRM_PREREAD_SIZE`. -/
def MAX_UNCONFIRM_PREREAD_SIZE : ℕ := 1 * 1024 * 1024

/-- `block_lim_cnt` for elements of `sz` bytes. -/
def blockLimCnt (sz : ℕ) : ℕ := MAX_UNCONFIRM_PREREAD_SIZE / sz

/-- `resize`, in bytes. -/
def resizeTo (len : ℕ) (item : Bytes) : Bytes :=
  item.take len ++ List.replicate (len - item.length) 0

/-- `read` to an offset of a container, if there are as many bytes. -/
def readInto (offset len : ℕ) (item bs : Bytes) : Option (Bytes × Bytes) :=
  if bs.length < len then none
  else some (item.take offset ++ bs.take len ++ item.drop (offset + len), bs.drop len)

/-- The loop over the blocks. -/
structure BlockLoop where
  i : ℕ
  len : ℕ
  item : Bytes
  bs : Bytes

/-- A round for `size` elements of `sz` bytes: the last block is shorter. A stream that had too few
bytes is at its end. -/
def blockBody (sz size : ℕ) (s : BlockLoop) : BlockLoop ⊕ Decoded Bytes :=
  if s.i < size then
    let len := if size ≤ (s.i + blockLimCnt sz) % 2 ^ 64 then size - s.i else s.len
    let item := resizeTo ((s.i + len) % 2 ^ 64 * sz) s.item
    match readInto (s.i * sz) (len * sz) item s.bs with
    | some (item, bs) => .inl ⟨(s.i + blockLimCnt sz) % 2 ^ 64, len, item, bs⟩
    | none => .inr (.fail .noBufferSpace (item.take (s.i * sz)) [])
  else .inr (.done s.item s.bs)

/-- More elements than there are addresses. -/
def TooMany (sz size : ℕ) : Prop := 1 < sz ∧ SIZE_MAX / sz < size

instance (sz size : ℕ) : Decidable (TooMany sz size) := inferInstanceAs (Decidable (_ ∧ _))

/-- The container branch with a reader that has no `check()`, behind the length; the loop leaves
with a result, if it does. -/
def StreamEnds (sz size : ℕ) (item bs : Bytes) (o : Decoded Bytes) : Prop :=
  if size = 0 then o = .done item bs
  else if TooMany sz size then o = .fail .noBufferSpace item bs
  else StepLoop.Ends (blockBody sz size) ⟨0, blockLimCnt sz, item, bs⟩ o

/-- The container branch with a `memory_reader`, behind the length. -/
def decodeChecked (sz size : ℕ) (item bs : Bytes) : Decoded Bytes :=
  if size = 0 then .done item bs
  else if TooMany sz size then .fail .noBufferSpace item bs
  else
    match readInto 0 (size * sz) (resizeTo (size * sz) item) bs with
    | some (item, bs) => .done item bs
    | none => .fail .noBufferSpace item bs

/-- The same verdict, and on success the same container and position. -/
def SameVerdict : Decoded Bytes → Decoded Bytes → Prop
  | .done item bs, .done item' bs' => item = item' ∧ bs = bs'
  | .fail code _ _, .fail code' _ _ => code = code'
  | _, _ => False

/-- The loop ends, and as with a `memory_reader`. -/
def Agrees (sz size : ℕ) (item : Bytes) (b : Buffer) : Prop :=
  ∃ o, StreamEnds sz size item b.bytes o ∧ SameVerdict o (decodeChecked sz size item b.bytes)

section Storage

variable {len offset : ℕ} {item bs : Bytes}

@[simp] theorem resizeTo_length : (resizeTo len item).length = len := by
  simp only [resizeTo, List.length_append, List.length_take, List.length_replicate]
  omega

/-- What a container has stays when it grows. -/
theorem take_resizeTo (hle : offset ≤ len) (hlen : offset ≤ item.length) :
    (resizeTo len item).take offset = item.take offset := by
  have hshort : offset ≤ (item.take len).length := by
    rw [List.length_take]
    exact le_min hle hlen
  rw [resizeTo, List.take_append_of_le_length hshort, List.take_take, min_eq_left hle]

theorem readInto_eq_none_iff : readInto offset len item bs = none ↔ bs.length < len := by
  rw [readInto]
  split
  · rename_i h
    exact iff_of_true rfl h
  · rename_i h
    exact iff_of_false (fun h => nomatch h) h

/-- A read that fills the rest of a container. -/
theorem readInto_full (hitem : item.length = offset + len) (h : len ≤ bs.length) :
    readInto offset len item bs = some (item.take offset ++ bs.take len, bs.drop len) := by
  rw [readInto, if_neg (Nat.not_lt.mpr h), List.drop_of_length_le hitem.le, List.append_nil]

end Storage

section Blocks

variable {sz size : ℕ} {b : Buffer} {s : BlockLoop}

/-- The state between two blocks: the container begins with what was read. -/
structure BlockInv (sz size : ℕ) (b : Buffer) (s : BlockLoop) : Prop where
  /-- the container has all elements, or a block more is to be read -/
  item_eq : size ≤ s.i ∧ s.item = b.bytes.take (size * sz) ∧ s.bs = b.bytes.drop (size * sz) ∧
      size * sz ≤ b.bytes.length ∨
    s.i < size ∧ s.item.take (s.i * sz) = b.bytes.take (s.i * sz) ∧ s.i * sz ≤ s.item.length ∧
      s.bs = b.bytes.drop (s.i * sz) ∧ s.i * sz ≤ b.bytes.length ∧ s.len = blockLimCnt sz

/-- What `decodeChecked` gives where there is something to read. -/
def WholeVerdict (sz size : ℕ) (b : Buffer) (o : Decoded Bytes) : Prop :=
  if size * sz ≤ b.bytes.length then
    o = .done (b.bytes.take (size * sz)) (b.bytes.drop (size * sz))
  else ∃ item bs, o = .fail .noBufferSpace item bs

theorem blockLimCnt_pos (hsz : 0 < sz) (hle : sz ≤ MAX_UNCONFIRM_PREREAD_SIZE) :
    0 < blockLimCnt sz := Nat.div_pos hle hsz

theorem blockLimCnt_le : blockLimCnt sz ≤ 2 ^ 20 := Nat.div_le_self _ _

/-- The counter does not wrap before the bytes are used up. -/
theorem counter_lt (hsz : 0 < sz) (h : s.i * sz ≤ b.bytes.length) :
    s.i + blockLimCnt sz < 2 ^ 64 := by
  have hi : s.i ≤ s.i * sz := Nat.le_mul_of_pos_right _ hsz
  have hb := b.length_lt
  have hblock := @blockLimCnt_le sz
  omega

/-- A block is read, or the input ends before the container does. -/
theorem blockBody_keeps (hsz : 0 < sz) (hle : sz ≤ MAX_UNCONFIRM_PREREAD_SIZE)
    (h : BlockInv sz size b s) :
    (∀ s', blockBody sz size s = .inl s' → BlockInv sz size b s' ∧ size - s'.i < size - s.i) ∧
      ∀ o, blockBody sz size s = .inr o → WholeVerdict sz size b o := by
  have hblock := blockLimCnt_pos hsz hle
  rcases h.item_eq with ⟨hi, hitem, hbs, hall⟩ | ⟨hi, hitem, hlen, hbs, hread, hfull⟩
  · rw [blockBody, if_neg (Nat.not_lt.mpr hi)]
    refine ⟨fun s' hs' => (nomatch hs'), fun o ho => ?_⟩
    cases ho
    rw [WholeVerdict, if_pos hall, hitem, hbs]
  have hwrap := counter_lt hsz hread
  -- how many elements the block has
  obtain ⟨len, hlen', hpos, hto, hlast⟩ : ∃ len,
      (if size ≤ (s.i + blockLimCnt sz) % 2 ^ 64 then size - s.i else s.len) = len ∧ 0 < len ∧
        s.i + len ≤ size ∧
        (size ≤ s.i + blockLimCnt sz ∧ s.i + len = size ∨
          s.i + blockLimCnt sz < size ∧ len = blockLimCnt sz) := by
    refine ⟨_, rfl, ?_⟩
    rw [Nat.mod_eq_of_lt hwrap]
    split <;> omega
  have hlen64 : s.i + len < 2 ^ 64 := by omega
  have hsum : s.i * sz + len * sz = (s.i + len) * sz := (Nat.add_mul _ _ _).symm
  have hmono : (s.i + len) * sz ≤ size * sz := Nat.mul_le_mul_right sz hto
  rw [blockBody, if_pos hi, hlen']
  dsimp only
  rw [Nat.mod_eq_of_lt hlen64, Nat.mod_eq_of_lt hwrap]
  by_cases henough : (s.i + len) * sz ≤ b.bytes.length
  · have hroom : (resizeTo ((s.i + len) * sz) s.item).length = s.i * sz + len * sz := by
      rw [resizeTo_length, hsum]
    have hrest : len * sz ≤ s.bs.length := by
      rw [hbs, List.length_drop]
      omega
    have htake : s.item.take (s.i * sz) ++ s.bs.take (len * sz) =
        b.bytes.take ((s.i + len) * sz) := by
      rw [hitem, hbs, ← hsum, List.take_add]
    have hdrop : s.bs.drop (len * sz) = b.bytes.drop ((s.i + len) * sz) := by
      rw [hbs, List.drop_drop, hsum]
    rw [readInto_full hroom hrest, take_resizeTo (by omega) hlen, htake, hdrop]
    refine ⟨fun s' hs' => ?_, fun o ho => nomatch ho⟩
    cases hs'
    refine ⟨⟨?_⟩, by dsimp only; omega⟩
    rcases hlast with ⟨hend, hsize⟩ | ⟨hmore, rfl⟩
    · refine .inl ⟨hend, ?_, ?_, ?_⟩
      all_goals rw [← hsize]
      exact henough
    · refine .inr ⟨hmore, ?_, ?_, rfl, henough, rfl⟩
      · rw [List.take_take, min_self]
      · rw [List.length_take]
        exact le_min le_rfl henough
  · have hshort : s.bs.length < len * sz := by
      rw [hbs, List.length_drop]
      omega
    rw [readInto_eq_none_iff.mpr hshort]
    refine ⟨fun s' hs' => (nomatch hs'), fun o ho => ?_⟩
    cases ho
    rw [WholeVerdict, if_neg (by omega)]
    exact ⟨_, _, rfl⟩

/-- The loop over blocks of elements that are no longer than a block ends, with all elements or
with a short input. -/
theorem ends_of_le (hsz : 0 < sz) (hle : sz ≤ MAX_UNCONFIRM_PREREAD_SIZE) (hsize : 0 < size)
    (item : Bytes) : ∃ o, StepLoop.Ends (blockBody sz size)
      ⟨0, blockLimCnt sz, item, b.bytes⟩ o ∧ WholeVerdict sz size b o := by
  have hstart : BlockInv sz size b ⟨0, blockLimCnt sz, item, b.bytes⟩ :=
    ⟨.inr ⟨hsize, by simp, by simp, by simp, by simp, rfl⟩⟩
  exact StepLoop.ends_of_measure (BlockInv sz size b) (fun s => size - s.i) (WholeVerdict sz size b)
    (fun _ s' hs => (blockBody_keeps hsz hle hs).1 s')
    (fun _ o hs => (blockBody_keeps hsz hle hs).2 o) hstart

/-- With elements that are longer than a block, a block has none, and the loop goes on for ever. -/
theorem not_ends_of_lt (hlt : MAX_UNCONFIRM_PREREAD_SIZE < sz) (hsize : 0 < size) (item : Bytes)
    (o : Decoded Bytes) :
    ¬ StepLoop.Ends (blockBody sz size) ⟨0, blockLimCnt sz, item, b.bytes⟩ o := by
  have hzero : blockLimCnt sz = 0 := Nat.div_eq_of_lt hlt
  have hround : ∀ item : Bytes, blockBody sz size ⟨0, 0, item, b.bytes⟩ =
      .inl ⟨0, 0, [], b.bytes⟩ := by
    intro item
    have hnot : ¬ size ≤ (0 + 0) % 2 ^ 64 := by omega
    rw [blockBody, if_pos hsize, hzero]
    simp [readInto, resizeTo, hsize.ne']
  rw [hzero, StepLoop.ends_iff_of_inl (hround item)]
  exact StepLoop.not_ends_of_eq (hround [])

/-- What `decodeChecked` gives. -/
theorem decodeChecked_eq (hsize : size ≠ 0) (hfew : ¬ TooMany sz size) (item : Bytes) :
    WholeVerdict sz size b (decodeChecked sz size item b.bytes) := by
  rw [WholeVerdict, decodeChecked, if_neg hsize, if_neg hfew]
  split
  · rename_i henough
    have hroom : (resizeTo (size * sz) item).length = 0 + size * sz := by
      rw [resizeTo_length, Nat.zero_add]
    rw [readInto_full hroom henough, List.take_zero, List.nil_append]
  · rename_i hshort
    rw [readInto_eq_none_iff.mpr (by omega)]
    exact ⟨_, _, rfl⟩

/-- Two verdicts on the whole container are the same. -/
theorem WholeVerdict.same {o o' : Decoded Bytes} (h : WholeVerdict sz size b o)
    (h' : WholeVerdict sz size b o') : SameVerdict o o' := by
  rw [WholeVerdict] at h h'
  split at h
  · rename_i henough
    rw [if_pos henough] at h'
    rw [h, h']
    exact ⟨rfl, rfl⟩
  · rename_i hshort
    rw [if_neg hshort] at h'
    obtain ⟨_, _, rfl⟩ := h
    obtain ⟨_, _, rfl⟩ := h'
    rfl

/-- The loop ends, and as with a `memory_reader`, unless it is entered with elements that are longer
than a block. -/
theorem agrees_iff (hsz : 0 < sz) (item : Bytes) : Agrees sz size item b ↔
    sz ≤ MAX_UNCONFIRM_PREREAD_SIZE ∨ size = 0 ∨ SIZE_MAX / sz < size := by
  by_cases hsize : size = 0
  · refine iff_of_true ⟨.done item b.bytes, ?_, ?_⟩ (.inr (.inl hsize))
    · rw [StreamEnds, if_pos hsize]
    · rw [decodeChecked, if_pos hsize]
      exact ⟨rfl, rfl⟩
  by_cases hmany : TooMany sz size
  · refine iff_of_true ⟨.fail .noBufferSpace item b.bytes, ?_, ?_⟩ (.inr (.inr hmany.2))
    · rw [StreamEnds, if_neg hsize, if_pos hmany]
    · rw [decodeChecked, if_neg hsize, if_pos hmany]
      rfl
  by_cases hle : sz ≤ MAX_UNCONFIRM_PREREAD_SIZE
  · obtain ⟨o, ho, hwhole⟩ := ends_of_le hsz hle (Nat.pos_of_ne_zero hsize) item (b := b)
    refine iff_of_true ⟨o, ?_, hwhole.same (decodeChecked_eq hsize hmany item)⟩ (.inl hle)
    rw [StreamEnds, if_neg hsize, if_neg hmany]
    exact ho
  · have hlt : MAX_UNCONFIRM_PREREAD_SIZE < sz := Nat.lt_of_not_le hle
    have hone : 1 < sz := lt_trans (by decide) hlt
    refine iff_of_false ?_ ?_
    · rintro ⟨o, ho, -⟩
      rw [StreamEnds, if_neg hsize, if_neg hmany] at ho
      exact not_ends_of_lt hlt (Nat.pos_of_ne_zero hsize) item o ho
    · rintro (h | h | h)
      · exact hle h
      · exact hsize h
      · exact hmany ⟨hone, h⟩

end Blocks

/-- A `short` of two bytes, three times. -/
theorem agrees_shorts : Agrees 2 3 [] ⟨[1, 0, 2, 0, 3, 0], by decide⟩ :=
  (agrees_iff (by decide) []).mpr (.inl (by decide))

/-- One element of two megabytes: the loop does not end, however many bytes there are. -/
theorem not_agrees_two_megabytes :
    ¬ ∀ (sz size : ℕ) (item : Bytes) (b : Buffer), 0 < sz → size < 2 ^ 64 →
      Agrees sz size item b := by
  intro h
  have hagrees := h (2 * 2 ^ 20) 1 [] ⟨[], by decide⟩ (by decide) (by decide)
  rw [agrees_iff (by decide)] at hagrees
  revert hagrees
  decide

/-! ### The reader of the other modules -/

/-- A container that is trivially copyable, as the payload pass reads it from memory. -/
theorem TypeEnv.deserializeElements_eq (Γ : TypeEnv) (read : PayloadReader) {kind : ContainerKind}
    {t : Ty} (hkind : (kind.continuous && Γ.isTrivialSerializable t) = true) {size : ℕ}
    (hsize : size ≠ 0) (old : Val) (item : Bytes) (b : Buffer) :
    Γ.deserializeElements read true kind t old size b.bytes =
      match decodeChecked (Γ.sizeof t) size item b.bytes with
      | .done storage rest => .done (.list (splitBlock (Γ.sizeof t) size storage)) rest
      | _ => .fail .noBufferSpace old b.bytes := by
  have hb := b.length_lt
  rw [deserializeElements, if_pos hkind, withBytes, StructPack.read]
  by_cases hmany : TooMany (Γ.sizeof t) size
  · -- the product is more than any buffer has
    have hlong : b.bytes.length < size * Γ.sizeof t := by
      have hdiv := Nat.lt_mul_of_div_lt hmany.2 (by have := hmany.1; omega)
      rw [SIZE_MAX] at hdiv
      omega
    rw [if_pos hlong, decodeChecked, if_neg hsize, if_pos hmany]
  · have hwhole := decodeChecked_eq hsize hmany item (b := b)
    rw [WholeVerdict] at hwhole
    by_cases henough : size * Γ.sizeof t ≤ b.bytes.length
    · rw [if_pos henough] at hwhole
      rw [if_neg (Nat.not_lt.mpr henough), hwhole]
      rfl
    · rw [if_neg henough] at hwhole
      obtain ⟨_, _, hfail⟩ := hwhole
      rw [if_pos (Nat.lt_of_not_le henough), hfail]

end Yalantinglibs.StructPack
