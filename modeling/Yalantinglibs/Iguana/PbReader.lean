import Yalantinglibs.Iguana.PbType

/-!
# The reader of struct_pb

`from_pb` and `from_pb_impl` of `iguana/pb_reader.hpp`, and `decode_varint` of
`iguana/pb_util.hpp`.

A `std::string_view` is a list of bytes here, so what lies behind it is not in the model: the
reader stops where it would read there, or write outside of what it has resized, or wrap a size.

Room for packed items of a fixed width is made by `detail::resize` of
`iguana/detail/string_resize.hpp`, which is not the same with all standard libraries.

## Main definitions

* `Stop` — what the reader stops with
* `decodeVarint` — a number
* `Resize`, `copyItems` — packed items of a fixed width
* `fromPbImpl` — a member
* `fromPb` — a message

Messages are nested at most as deep as there are bytes, and each round of a loop takes a byte; the
bounds on both are counted down, so that the definitions are recursive in them.
-/

set_option autoImplicit false

namespace Yalantinglibs.Iguana.Pb

open ByteCodec

/-- What the reader stops with. -/
inductive Stop
  /-- an exception -/
  | throws
  /-- `decode_varint` reads the byte behind an empty view -/
  | emptyView
  /-- `memcpy` writes outside of what was made room for -/
  | overrun
  /-- the sum of a position and a size, or of two sizes, wraps -/
  | wraps
  /-- a bound was too small -/
  | tooDeep
  deriving DecidableEq, Repr

/-- What was read, and the bytes that are left. -/
abbrev Read (α : Type) := Except Stop (α × Bytes)

/-- `decode_varint`. -/
def decodeVarint (view : Bytes) : Read ℕ :=
  if view = [] then .error .emptyView
  else
    match readVarint 10 0 0 view with
    | .value n rest => .ok (n, rest)
    | _ => .error .throws

/-- The size in front of a message, an entry or packed items: 32 bits of it, and the bytes must be
there. -/
def decodeSize (view : Bytes) : Read ℕ :=
  match decodeVarint view with
  | .ok (n, rest) => if rest.length < n % 2 ^ 32 then .error .throws else .ok (n % 2 ^ 32, rest)
  | .error e => .error e

theorem decodeSize_eq_ok_iff {view rest : Bytes} {c : ℕ} : decodeSize view = .ok (c, rest) ↔
    ∃ n, decodeVarint view = .ok (n, rest) ∧ c = n % 2 ^ 32 ∧ c ≤ rest.length := by
  rw [decodeSize]
  cases hv : decodeVarint view with
  | error e =>
    refine iff_of_false (fun h => nomatch h) ?_
    rintro ⟨_, h, -⟩
    cases h
  | ok p =>
    obtain ⟨n, r⟩ := p
    dsimp only
    split
    · refine iff_of_false (fun h => nomatch h) ?_
      rintro ⟨_, h, rfl, hle⟩
      cases h
      omega
    · constructor
      · intro h
        cases h
        exact ⟨n, rfl, rfl, by omega⟩
      · rintro ⟨_, h, rfl, -⟩
        cases h
        rfl

/-- `is_fixed_v`. -/
def Num.isFixed : Num → Bool
  | .fixed32 | .sfixed32 | .fixed64 | .sfixed64 => true
  | _ => false

/-- A number. -/
def decodeNum (k : Num) (view : Bytes) : Read Val :=
  match k.wireType with
  | .varint =>
    match decodeVarint view with
    | .ok (n, rest) => .ok (.num (k.ofWord n), rest)
    | .error e => .error e
  | _ =>
    if view.length < k.width then .error .throws
    else .ok (.num (BitVec.ofNat 64 (ofLE (view.take k.width))), view.drop k.width)

/-- A text; the size is a `std::size_t`. -/
def decodeString (view : Bytes) : Read Val :=
  match decodeVarint view with
  | .ok (size, rest) =>
    let pos := view.length - rest.length
    if 2 ^ 64 ≤ pos + size then .error .wraps
    else if rest.length < size then .error .throws
    else .ok (.str (rest.take size), rest.drop size)
  | .error e => .error e

/-- Items of a fixed width, as `memcpy` copies them. -/
def fixedItems (width : ℕ) : ℕ → Bytes → List Val
  | 0, _ => []
  | n + 1, bytes =>
    .num (BitVec.ofNat 64 (ofLE (bytes.take width))) :: fixedItems width n (bytes.drop width)

/-- The loop over packed items that are of no fixed-width type; `start` is the length of the view
in front of the first one. -/
def decodePacked (item : Bytes → Read Val) (start size : ℕ) :
    ℕ → List Val → Bytes → Read (List Val)
  | 0, _, _ => .error .tooDeep
  | n + 1, vs, view =>
    if view = [] then .ok (vs, view)
    else
      match item view with
      | .ok (v, view) =>
        if start - view.length = size then .ok (vs ++ [v], view)
        else decodePacked item start size n (vs ++ [v]) view
      | .error e => .error e

/-- The width of a type of fixed width, whose items are copied at once. -/
def Ty.fixedWidth : Ty → Option ℕ
  | .num k => if k.isFixed then some k.width else none
  | _ => none

/-- What `detail::resize` makes of a vector. -/
inductive Resize
  /-- with libstdc++, with the library of Visual C++, and with libc++ if it has no sanitizer: the
  vector is taken for one of `char`, and the number of items for its size in bytes -/
  | bytes
  /-- elsewhere: `resize` of the vector -/
  | items
  deriving DecidableEq, Repr

/-- The bytes of a vector that was resized to `n` items. -/
def Resize.room (lib : Resize) (width n : ℕ) : ℕ :=
  match lib with
  | .bytes => n
  | .items => n * width

/-- Packed items of a fixed width are copied behind those that are there. Their numbers are of type
`int`: that of the items that are there is cut to 32 bits, and the sum goes to `detail::resize` as a
`std::size_t`. -/
def copyItems (lib : Resize) (width size : ℕ) (vs : List Val) (bytes : Bytes) :
    Except Stop (List Val) :=
  let num := size / width
  let oldSize := (BitVec.ofNat 32 vs.length).toInt
  let newSize := oldSize + num
  if 2 ^ 31 ≤ newSize then .error .wraps
  -- nearly `2 ^ 64` items are asked for: `std::length_error`
  else if newSize < 0 then .error .throws
  else
    let room := lib.room width newSize.toNat
    if 0 < size ∧ (oldSize < 0 ∨ room < oldSize.toNat * width + size) then .error .overrun
    else .ok (vs.take (min oldSize.toNat (room / width)) ++ fixedItems width num bytes)

/-- Whole items are copied into an empty vector, where there is room for them. -/
theorem copyItems_nil {width size : ℕ} (hdvd : width ∣ size)
    (hfits : size / width < 2 ^ 31) (bytes : Bytes) :
    copyItems .items width size [] bytes = .ok (fixedItems width (size / width) bytes) := by
  have hroom : size / width * width = size := Nat.div_mul_cancel hdvd
  have hzero : (BitVec.ofNat 32 ([] : List Val).length).toInt = 0 := rfl
  rw [copyItems, hzero]
  generalize size / width = num at hroom hfits
  simp only [zero_add, Resize.room, Int.toNat_natCast, Int.toNat_zero, zero_mul, hroom,
    lt_self_iff_false, or_self, and_false, if_false, List.take_nil, List.nil_append]
  rw [if_neg (by omega), if_neg (by omega)]

/-- Packed items. -/
def decodePackedItems (lib : Resize) (fixedWidth : Option ℕ) (item : Bytes → Read Val)
    (vs : List Val) (view : Bytes) : Read (List Val) :=
  match decodeSize view with
  | .ok (size, view) =>
    match fixedWidth with
    | some width => (copyItems lib width size vs view).map fun vs => (vs, view.drop size)
    | none => decodePacked item view.length size (view.length + 1) vs view
  | .error e => .error e

/-- The loop over items that are no numbers: it goes on while the key of the field comes again. -/
def decodeItems (item : Bytes → Read Val) (fieldNo : ℕ) : ℕ → List Val → Bytes → Read (List Val)
  | 0, _, _ => .error .tooDeep
  | n + 1, vs, view =>
    if view = [] then .ok (vs, view)
    else
      match item view with
      | .ok (v, view) =>
        if view = [] then .ok (vs ++ [v], view)
        else
          match decodeVarint view with
          | .ok (key, rest) =>
            if key % 2 ^ 32 / 8 ≠ fieldNo then .ok (vs ++ [v], view)
            else decodeItems item fieldNo n (vs ++ [v]) rest
          | .error e => .error e
      | .error e => .error e

/-- `decode_pair_value`: a key with another wire type leaves the value as it is. -/
def decodePairValue (t : Ty) (init : Val) (value : Bytes → Read Val) (view : Bytes) : Read Val :=
  match decodeVarint view with
  | .ok (key, rest) => if key % 8 ≠ t.getWireType.code then .ok (init, rest) else value rest
  | .error e => .error e

/-- Two keys of a map are equivalent. -/
def sameKey : Val → Val → Bool
  | .num u, .num u' => u = u'
  | .str s, .str s' => s = s'
  | _, _ => false

/-- `emplace` of a map. -/
def emplace (es : List Val) (k v : Val) : List Val :=
  if es.any fun
    | .pair k' _ => sameKey k' k
    | _ => false
  then es
  else es ++ [.pair k v]

/-- The loop over entries: each is read from the view, not from the bytes its size tells. -/
def decodeEntries (key mapped : Bytes → Read Val) (fieldNo : ℕ) :
    ℕ → List Val → Bytes → Read (List Val)
  | 0, _, _ => .error .tooDeep
  | n + 1, es, view =>
    if view = [] then .ok (es, view)
    else
      match decodeSize view with
      | .ok (_, view) =>
        match key view with
        | .ok (k, view) =>
          match mapped view with
          | .ok (v, view) =>
            if view = [] then .ok (emplace es k v, view)
            else
              match decodeVarint view with
              | .ok (key', rest) =>
                if key' % 2 ^ 32 / 8 ≠ fieldNo then .ok (emplace es k v, view)
                else decodeEntries key mapped fieldNo n (emplace es k v) rest
              | .error e => .error e
          | .error e => .error e
        | .error e => .error e
      | .error e => .error e

section Reader

variable (lib : Resize) (S : Schema)

/-- `from_pb_impl`, with `from_pb` for the messages inside. -/
def fromPbImpl (message : ℕ → Val → Bytes → Except Stop Val) :
    Ty → Val → ℕ → Bytes → Read Val
  | .num k, _, _, view => decodeNum k view
  | .string, _, _, view => decodeString view
  | .message id, v, _, view =>
    match decodeSize view with
    | .ok (size, view) =>
      if size = 0 then .ok (v, view)
      else
        match message id v (view.take size) with
        | .ok v => .ok (v, view.drop size)
        | .error e => .error e
    | .error e => .error e
  | .sequence t, v, fieldNo, view =>
    let item := fromPbImpl message t (S.fresh t) 0
    (if t.isLenprefixed then decodeItems item fieldNo (view.length + 1) v.items view
      else decodePackedItems lib t.fixedWidth item v.items view).map fun p => (.list p.1, p.2)
  | .map k m, v, fieldNo, view =>
    (decodeEntries (decodePairValue k (S.fresh k) (fromPbImpl message k (S.fresh k) 0))
      (decodePairValue m (S.fresh m) (fromPbImpl message m (S.fresh m) 0)) fieldNo
      (view.length + 1) v.items view).map fun p => (.list p.1, p.2)
  | .optional t, _, _, view =>
    (fromPbImpl message t (S.fresh t) 0 view).map fun p => (.some p.1, p.2)

/-- What a field number stands for: a member, or one alternative of it. -/
structure Slot where
  member : ℕ
  alt : Option ℕ
  ty : Ty

/-- The field numbers of a member. -/
def Member.slots (m : Member) (i : ℕ) : List (ℕ × Slot) :=
  match m.ty with
  | .plain t => [(m.fieldNo, ⟨i, .none, t⟩)]
  | .oneof ts => ts.mapIdx fun a t => (m.fieldNo + a, ⟨i, .some a, t⟩)

/-- `get_members`. -/
def MessageDef.getMembers (d : MessageDef) : List (ℕ × Slot) :=
  (d.members.mapIdx fun i m => m.slots i).flatten

/-- A field is read into its member; an alternative is made first. -/
def Slot.read (message : ℕ → Val → Bytes → Except Stop Val) (c : Slot) (fieldNo : ℕ)
    (vs : List Val) (view : Bytes) : Read (List Val) :=
  match c.alt with
  | .none => (fromPbImpl lib S message c.ty (vs.getD c.member .none) fieldNo view).map fun p =>
      (vs.set c.member p.1, p.2)
  | .some a => (fromPbImpl lib S message c.ty (S.fresh c.ty) fieldNo view).map fun p =>
      (vs.set c.member (.alt a p.1), p.2)

/-- The loop of `from_pb`. -/
def readMembers (message : ℕ → Val → Bytes → Except Stop Val) (members : List (ℕ × Slot)) :
    ℕ → List Val → Bytes → Except Stop (List Val)
  | 0, _, _ => .error .tooDeep
  | n + 1, vs, view =>
    if view = [] then .ok vs
    else
      match decodeVarint view with
      | .ok (key, view) =>
        match members.lookup (key % 2 ^ 32 / 8) with
        -- `map.at` throws
        | .none => .error .throws
        | .some c =>
          if key % 8 ≠ c.ty.getWireType.code then .error .throws
          else
            match c.read lib S message (key % 2 ^ 32 / 8) vs view with
            | .ok (vs, view) => readMembers message members n vs view
            | .error e => .error e
      | .error e => .error e

/-- `from_pb`; messages are nested at most `depth` deep. -/
def fromPb : ℕ → ℕ → Val → Bytes → Except Stop Val
  | 0, _, _, _ => .error .tooDeep
  | depth + 1, id, v, view =>
    (readMembers lib S (fromPb depth) (S.message id).getMembers (view.length + 1) v.items view).map
      .list

end Reader

end Yalantinglibs.Iguana.Pb
