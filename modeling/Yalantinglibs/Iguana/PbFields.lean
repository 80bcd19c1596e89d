import Yalantinglibs.Data.PrefixReader
import Yalantinglibs.Data.VarintGroups
import Yalantinglibs.Iguana.PbReader

/-!
# The fields of struct_pb that tell their length

A text, a message, packed items and an entry of a map come with a length in front. `from_pb_impl`
goes by it for texts, messages and items of a fixed width. Packed items it reads one after the other
until so many bytes are used up, or the view is; of an entry it reads the key and the value, and
does not look at the length again.

## Main definitions

* `ReadsFields` — a call of `from_pb_impl`, with the fields that it reads
* `Exact` — a field is read up to where its length says
* `WholeField` — the bytes of a field are what its type makes of them

## Main results

* `readsFields_of_fromPbImpl` — what a call reads
* `exact_iff_wholeField` — a field is read exactly when it is whole
-/

set_option autoImplicit false

namespace Yalantinglibs.Iguana.Pb

open ByteCodec Reader

/-! ### Readers that keep to what they take -/

section Contained

variable {view rest : Bytes} {n : ℕ}

/-- A number, by where it ends. -/
theorem decodeVarint_eq_ok_iff : decodeVarint view = .ok (n, rest) ↔
    ∃ m, varintEnd 10 view = some m ∧ n = groups (view.take m) % 2 ^ 64 ∧ rest = view.drop m := by
  by_cases hnil : view = []
  · rw [decodeVarint, if_pos hnil, hnil]
    refine iff_of_false (fun h => nomatch h) ?_
    rintro ⟨m, hm, -⟩
    cases hm
  · rw [decodeVarint, if_neg hnil, readVarint_eq le_rfl]
    cases hend : varintEnd 10 view with
    | some m =>
      dsimp only
      constructor
      · intro h
        cases h
        exact ⟨m, rfl, rfl, rfl⟩
      · rintro ⟨m', hm, rfl, rfl⟩
        rw [Option.some.inj hm]
    | none =>
      refine iff_of_false (fun h => ?_) ?_
      · dsimp only at h
        by_cases hlen : view.length < 10
        · rw [if_pos hlen] at h
          cases h
        · rw [if_neg hlen] at h
          cases h
      · rintro ⟨m, hm, -⟩
        cases hm

theorem contained_decodeVarint : Contained (decodeVarint : Reader Stop UInt8 ℕ) where
  advances buf a rest h := by
    obtain ⟨m, -, -, rfl⟩ := decodeVarint_eq_ok_iff.mp h
    exact List.drop_suffix m buf
  isLocal buf a rest h more := by
    obtain ⟨m, hend, rfl, rfl⟩ := decodeVarint_eq_ok_iff.mp h
    have hle := (varintEnd_bounds hend).2.2
    refine decodeVarint_eq_ok_iff.mpr ⟨m, varintEnd_append hend more, ?_, ?_⟩
    · rw [List.take_append_of_le_length hle]
    · rw [List.drop_append_of_le_length hle]
  cuts buf a rest more h := by
    obtain ⟨m, hend, rfl, hrest⟩ := decodeVarint_eq_ok_iff.mp h
    have hlen := congrArg List.length hrest
    have hbound := (varintEnd_bounds hend).2.2
    simp only [List.length_append, List.length_drop] at hlen hbound
    have hle : m ≤ buf.length := by omega
    refine decodeVarint_eq_ok_iff.mpr ⟨m, varintEnd_of_append hend hle, ?_, ?_⟩
    · rw [List.take_append_of_le_length hle]
    · rw [List.drop_append_of_le_length hle] at hrest
      exact List.append_cancel_right hrest

/-- So many bytes, if they are there. -/
def block (n : ℕ) : Reader Stop UInt8 Bytes := fun view =>
  if view.length < n then .error .throws else .ok (view.take n, view.drop n)

theorem block_eq_ok_iff {b : Bytes} :
    block n view = .ok (b, rest) ↔ n ≤ view.length ∧ b = view.take n ∧ rest = view.drop n := by
  rw [block]
  by_cases h : view.length < n
  · rw [if_pos h]
    exact iff_of_false (fun h => nomatch h) fun hall => by omega
  · rw [if_neg h]
    constructor
    · intro heq
      cases heq
      exact ⟨Nat.le_of_not_lt h, rfl, rfl⟩
    · rintro ⟨-, rfl, rfl⟩
      rfl

theorem contained_block (n : ℕ) : Contained (block n) where
  advances buf a rest h := by
    obtain ⟨-, -, rfl⟩ := block_eq_ok_iff.mp h
    exact List.drop_suffix n buf
  isLocal buf a rest h more := by
    obtain ⟨hle, rfl, rfl⟩ := block_eq_ok_iff.mp h
    apply block_eq_ok_iff.mpr
    refine ⟨?_, ?_, ?_⟩
    · rw [List.length_append]
      omega
    · rw [List.take_append_of_le_length hle]
    · rw [List.drop_append_of_le_length hle]
  cuts buf a rest more h := by
    obtain ⟨hle, rfl, hrest⟩ := block_eq_ok_iff.mp h
    have hlen := congrArg List.length hrest
    simp only [List.length_append, List.length_drop] at hlen hle
    have hle' : n ≤ buf.length := by omega
    apply block_eq_ok_iff.mpr
    refine ⟨hle', ?_, ?_⟩
    · rw [List.take_append_of_le_length hle']
    · rw [List.drop_append_of_le_length hle'] at hrest
      exact List.append_cancel_right hrest

/-- A number of a type. -/
theorem contained_decodeNum (k : Num) : Contained (decodeNum k : Reader Stop UInt8 Val) := by
  by_cases hk : k.wireType = .varint
  · have hread : @Eq (Reader Stop UInt8 Val) (decodeNum k)
        ((fun n => Val.num (k.ofWord n)) <$> (decodeVarint : Reader Stop UInt8 ℕ)) := by
      funext view
      rw [map_apply, decodeNum, hk]
      cases decodeVarint view <;> rfl
    rw [hread]
    exact contained_decodeVarint.map _
  · have hread : @Eq (Reader Stop UInt8 Val) (decodeNum k)
        ((fun b => Val.num (BitVec.ofNat 64 (ofLE b))) <$> block k.width) := by
      funext view
      rw [map_apply, decodeNum, block]
      cases hw : k.wireType with
      | varint => exact absurd hw hk
      | _ =>
        dsimp only
        split <;> rfl
    rw [hread]
    exact (contained_block _).map _

/-- A number takes a byte at least. -/
theorem decodeNum_length_lt {k : Num} {v : Val} (h : decodeNum k view = .ok (v, rest)) :
    rest.length < view.length := by
  rw [decodeNum] at h
  have hfixed : (if view.length < k.width then (.error .throws : Read Val)
      else .ok (.num (BitVec.ofNat 64 (ofLE (view.take k.width))), view.drop k.width)) =
        .ok (v, rest) → rest.length < view.length := by
    intro h
    have hpos : 0 < k.width := by cases k <;> simp [Num.width]
    split at h
    · cases h
    · cases h
      rw [List.length_drop]
      omega
  split at h
  · cases hv : decodeVarint view with
    | error e =>
      rw [hv] at h
      cases h
    | ok p =>
      rw [hv] at h
      cases h
      obtain ⟨m, hend, -, hrest⟩ := decodeVarint_eq_ok_iff.mp hv
      have := varintEnd_bounds hend
      rw [hrest, List.length_drop]
      omega
  · exact hfixed h

/-- A text is what its size tells. -/
theorem decodeString_eq_ok_iff {v : Val} : decodeString view = .ok (v, rest) ↔
    ∃ size r, decodeVarint view = .ok (size, r) ∧ view.length - r.length + size < 2 ^ 64 ∧
      size ≤ r.length ∧ v = .str (r.take size) ∧ rest = r.drop size := by
  rw [decodeString]
  cases hv : decodeVarint view with
  | error e =>
    refine iff_of_false (fun h => nomatch h) ?_
    rintro ⟨_, _, h, -⟩
    cases h
  | ok p =>
    obtain ⟨n, r⟩ := p
    dsimp only
    by_cases hwraps : 2 ^ 64 ≤ view.length - r.length + n
    · rw [if_pos hwraps]
      refine iff_of_false (fun h => nomatch h) ?_
      rintro ⟨_, _, h, hlt, -⟩
      cases h
      omega
    · rw [if_neg hwraps]
      by_cases hshort : r.length < n
      · rw [if_pos hshort]
        refine iff_of_false (fun h => nomatch h) ?_
        rintro ⟨_, _, h, -, hle, -⟩
        cases h
        omega
      · rw [if_neg hshort]
        constructor
        · intro h
          cases h
          exact ⟨n, r, rfl, by omega, by omega, rfl, rfl⟩
        · rintro ⟨_, _, h, -, -, rfl, rfl⟩
          cases h
          rfl

end Contained

/-! ### Fields that end with their size -/

section Values

variable {lib : Resize} {S : Schema} {message : ℕ → Val → Bytes → Except Stop Val}
  {view rest : Bytes}

/-- A size in front, and what is left behind so many bytes, as 32 bits of the size tell. -/
def EndsAtSize (view rest : Bytes) : Prop :=
  ∃ n r, decodeVarint view = .ok (n, r) ∧ n % 2 ^ 32 ≤ r.length ∧ rest = r.drop (n % 2 ^ 32)

theorem endsAtSize_of_message {id fieldNo : ℕ} {v v' : Val}
    (h : fromPbImpl lib S message (.message id) v fieldNo view = .ok (v', rest)) :
    EndsAtSize view rest := by
  rw [fromPbImpl] at h
  cases hsize : decodeSize view with
  | error e =>
    rw [hsize] at h
    cases h
  | ok p =>
    obtain ⟨c, r⟩ := p
    obtain ⟨n, hn, hc, hle⟩ := decodeSize_eq_ok_iff.mp hsize
    rw [hsize] at h
    dsimp only at h
    refine ⟨n, r, hn, hc ▸ hle, ?_⟩
    rw [← hc]
    by_cases hzero : c = 0
    · rw [if_pos hzero] at h
      cases h
      rw [hzero, List.drop_zero]
    · rw [if_neg hzero] at h
      cases hm : message id v (r.take c) with
      | error e =>
        rw [hm] at h
        cases h
      | ok w =>
        rw [hm] at h
        cases h
        rfl

theorem endsAtSize_of_fixedItems {width : ℕ} {item : Bytes → Read Val} {vs vs' : List Val}
    (h : decodePackedItems lib (some width) item vs view = .ok (vs', rest)) :
    EndsAtSize view rest := by
  rw [decodePackedItems] at h
  cases hsize : decodeSize view with
  | error e =>
    rw [hsize] at h
    cases h
  | ok p =>
    obtain ⟨c, r⟩ := p
    obtain ⟨n, hn, hc, hle⟩ := decodeSize_eq_ok_iff.mp hsize
    rw [hsize] at h
    dsimp only at h
    refine ⟨n, r, hn, hc ▸ hle, ?_⟩
    rw [← hc]
    cases hcopy : copyItems lib width c vs r with
    | error e =>
      rw [hcopy] at h
      cases h
    | ok ws =>
      rw [hcopy] at h
      cases h
      rfl

end Values

/-! ### Packed items -/

section Packed

variable {lib : Resize} {item : Bytes → Read Val} {view rest r : Bytes} {start size c n : ℕ}
  {vs vs' : List Val}

/-- An input that is a row of whole items. -/
inductive Tiles (item : Bytes → Read Val) : Bytes → Prop
  | nil : Tiles item []
  | cons {b rest : Bytes} {v : Val} (h : item b = .ok (v, rest)) (hrest : Tiles item rest) :
      Tiles item b

/-- There are items, and the last of them ends with the size. -/
def Stops (item : Bytes → Read Val) (c : ℕ) (r : Bytes) : Prop := c ≠ 0 ∧ Tiles item (r.take c)

/-- An item that takes no more than it needs, and a byte at least. -/
structure IsItem (item : Bytes → Read Val) : Prop where
  contained : Contained (item : Reader Stop UInt8 Val)
  length_lt : ∀ b v rest, item b = .ok (v, rest) → rest.length < b.length

/-- The loop stops where whole items use up the size. -/
theorem decodePacked_of_tiles (hitem : IsItem item) {p s : Bytes} (hp : Tiles item p) (hne : p ≠ [])
    (hcount : start = p.length + s.length + c) (hsize : size = p.length + c) {fuel : ℕ}
    (h : decodePacked item start size fuel vs (p ++ s) = .ok (vs', rest)) : rest = s := by
  induction hp generalizing vs fuel c with
  | nil => exact absurd rfl hne
  | @cons b b' v hread _ ih =>
    cases fuel with
    | zero => cases h
    | succ fuel =>
      have hlt := hitem.length_lt _ _ _ hread
      rw [decodePacked, if_neg (by simp [hne]), hitem.contained.isLocal _ _ _ hread s] at h
      dsimp only at h
      rw [List.length_append] at h
      by_cases hlast : b' = []
      · subst hlast
        rw [List.length_nil] at h
        rw [if_pos (by omega)] at h
        cases h
        rfl
      · have hpos := List.length_pos_iff.mpr hlast
        rw [if_neg (by omega)] at h
        exact ih hlast (c := c + (b.length - b'.length)) (by omega) (by omega) h

/-- Where the loop stops in front of the end of the view, whole items have used up the size. -/
theorem decodePacked_stops (hitem : IsItem item) {fuel : ℕ}
    (h : decodePacked item start size fuel vs view = .ok (vs', rest)) :
    rest = [] ∨ ∃ p, view = p ++ rest ∧ p ≠ [] ∧ Tiles item p ∧ start - rest.length = size := by
  induction fuel generalizing vs view with
  | zero => cases h
  | succ fuel ih =>
    rw [decodePacked] at h
    by_cases hnil : view = []
    · rw [if_pos hnil] at h
      cases h
      exact .inl hnil
    rw [if_neg hnil] at h
    cases hread : item view with
    | error e =>
      rw [hread] at h
      cases h
    | ok q =>
      obtain ⟨v, mid⟩ := q
      rw [hread] at h
      dsimp only at h
      have hlt := hitem.length_lt _ _ _ hread
      obtain ⟨front, rfl⟩ : ∃ front, front ++ mid = view := hitem.contained.advances _ _ _ hread
      have hfront : front ≠ [] := by
        rintro rfl
        exact lt_irrefl _ hlt
      by_cases hcount : start - mid.length = size
      · rw [if_pos hcount] at h
        cases h
        have hlast := hitem.contained.cuts front v [] rest hread
        exact .inr ⟨front, rfl, hfront, .cons hlast .nil, hcount⟩
      · rw [if_neg hcount] at h
        rcases ih h with hend | ⟨p, rfl, hp, htiles, hsize⟩
        · exact .inl hend
        · rw [← List.append_assoc] at hread
          have hfirst := hitem.contained.cuts (front ++ p) v p rest hread
          refine .inr ⟨front ++ p, (List.append_assoc _ _ _).symm, by simp [hfront],
            .cons hfirst htiles, hsize⟩

/-- Where packed items end: with the size, when that is the end of one of them, and else with the
view. -/
theorem decodePackedItems_end (hitem : IsItem item)
    (h : decodePackedItems lib none item vs view = .ok (vs', rest)) :
    ∃ n r, decodeVarint view = .ok (n, r) ∧ n % 2 ^ 32 ≤ r.length ∧
      (Stops item (n % 2 ^ 32) r ∧ rest = r.drop (n % 2 ^ 32) ∨
        ¬ Stops item (n % 2 ^ 32) r ∧ rest = []) := by
  rw [decodePackedItems] at h
  cases hsize : decodeSize view with
  | error e =>
    rw [hsize] at h
    cases h
  | ok q =>
    obtain ⟨c, r⟩ := q
    obtain ⟨n, hn, hc, hle⟩ := decodeSize_eq_ok_iff.mp hsize
    rw [hsize] at h
    dsimp only at h
    refine ⟨n, r, hn, hc ▸ hle, ?_⟩
    rw [← hc]
    by_cases hstops : Stops item c r
    · refine .inl ⟨hstops, ?_⟩
      have hlen : (r.take c).length = c := by
        rw [List.length_take]
        omega
      have hne : r.take c ≠ [] := by
        intro hnil
        rw [hnil] at hlen
        exact hstops.1 hlen.symm
      have hsplit := List.take_append_drop c r
      rw [← hsplit] at h
      refine decodePacked_of_tiles hitem hstops.2 hne (c := 0) ?_ (by omega) h
      rw [List.length_append, Nat.add_zero]
    · refine .inr ⟨hstops, ?_⟩
      rcases decodePacked_stops hitem h with hend | ⟨p, rfl, hp, htiles, hcount⟩
      · exact hend
      · have hlen : p.length = c := by
          rw [List.length_append] at hcount
          omega
        refine absurd ⟨?_, ?_⟩ hstops
        · rintro rfl
          exact hp (List.length_eq_zero_iff.mp hlen)
        · rw [← hlen, List.take_left]
          exact htiles

theorem isItem_decodeNum (k : Num) : IsItem (decodeNum k) :=
  ⟨contained_decodeNum k, fun _ _ _ h => decodeNum_length_lt h⟩

end Packed

/-! ### Fields -/

section Fields

variable (lib : Resize) (S : Schema) (message : ℕ → Val → Bytes → Except Stop Val)

/-- `from_pb_impl` of an item of a container, or of a part of an entry. -/
abbrev readFresh (t : Ty) : Bytes → Read Val := fromPbImpl lib S message t (S.fresh t) 0

/-- The part of an entry that has a type. -/
abbrev readPart (t : Ty) : Bytes → Read Val :=
  decodePairValue t (S.fresh t) (readFresh lib S message t)

/-- One round of the loop over entries: a size, a key and a mapped value. -/
structure EntryRead (k m : Ty) (view r r' rest : Bytes) : Prop where
  size : ∃ c, decodeSize view = .ok (c, r)
  key : ∃ v, readPart lib S message k r = .ok (v, r')
  mapped : ∃ v, readPart lib S message m r' = .ok (v, rest)

/-- What is read: a value, or a part of an entry, which is a value behind its key. -/
inductive Piece
  | value (t : Ty)
  | part (t : Ty)

/-- A piece is read from a view up to a rest, and in it these fields that tell their length: the
type of each, the view it is in front of, and what is left behind it. -/
inductive ReadsFields : Piece → ℕ → Bytes → List (Ty × Bytes × Bytes) → Bytes → Prop
  | num {k : Num} {fieldNo : ℕ} {view rest : Bytes} {v : Val}
      (h : decodeNum k view = .ok (v, rest)) :
      ReadsFields (.value (.num k)) fieldNo view [] rest
  | string {fieldNo : ℕ} {view rest : Bytes} {v : Val} (h : decodeString view = .ok (v, rest)) :
      ReadsFields (.value .string) fieldNo view [(.string, view, rest)] rest
  | message {id fieldNo : ℕ} {view rest : Bytes} {v v' : Val}
      (h : fromPbImpl lib S message (.message id) v fieldNo view = .ok (v', rest)) :
      ReadsFields (.value (.message id)) fieldNo view [(.message id, view, rest)] rest
  | packed {t : Ty} {fieldNo : ℕ} {view rest : Bytes} {vs vs' : List Val}
      (ht : t.isLenprefixed = false)
      (h : decodePackedItems lib t.fixedWidth (readFresh lib S message t) vs view =
        .ok (vs', rest)) :
      ReadsFields (.value (.sequence t)) fieldNo view [(.sequence t, view, rest)] rest
  | noItems {t : Ty} {fieldNo : ℕ} : ReadsFields (.value (.sequence t)) fieldNo [] [] []
  | lastItem {t : Ty} {fieldNo : ℕ} {view rest : Bytes} {fs : List (Ty × Bytes × Bytes)}
      (ht : t.isLenprefixed = true) (h : ReadsFields (.value t) 0 view fs rest) :
      ReadsFields (.value (.sequence t)) fieldNo view fs rest
  | moreItems {t : Ty} {fieldNo key : ℕ} {view mid mid' rest : Bytes}
      {fs fs' : List (Ty × Bytes × Bytes)} (ht : t.isLenprefixed = true)
      (h : ReadsFields (.value t) 0 view fs mid)
      (hkey : decodeVarint mid = .ok (key, mid')) (hno : key % 2 ^ 32 / 8 = fieldNo)
      (hmore : ReadsFields (.value (.sequence t)) fieldNo mid' fs' rest) :
      ReadsFields (.value (.sequence t)) fieldNo view (fs ++ fs') rest
  | noEntries {k m : Ty} {fieldNo : ℕ} : ReadsFields (.value (.map k m)) fieldNo [] [] []
  | lastEntry {k m : Ty} {fieldNo : ℕ} {view r r' rest : Bytes} {fs fs' : List (Ty × Bytes × Bytes)}
      (h : EntryRead lib S message k m view r r' rest) (hk : ReadsFields (.part k) 0 r fs r')
      (hm : ReadsFields (.part m) 0 r' fs' rest) :
      ReadsFields (.value (.map k m)) fieldNo view ((.map k m, view, rest) :: (fs ++ fs')) rest
  | moreEntries {k m : Ty} {fieldNo key : ℕ} {view r r' mid mid' rest : Bytes}
      {fs fs' fs'' : List (Ty × Bytes × Bytes)} (h : EntryRead lib S message k m view r r' mid)
      (hk : ReadsFields (.part k) 0 r fs r') (hm : ReadsFields (.part m) 0 r' fs' mid)
      (hkey : decodeVarint mid = .ok (key, mid')) (hno : key % 2 ^ 32 / 8 = fieldNo)
      (hmore : ReadsFields (.value (.map k m)) fieldNo mid' fs'' rest) :
      ReadsFields (.value (.map k m)) fieldNo view
        ((.map k m, view, mid) :: (fs ++ fs' ++ fs'')) rest
  | optional {t : Ty} {fieldNo : ℕ} {view rest : Bytes} {fs : List (Ty × Bytes × Bytes)}
      (h : ReadsFields (.value t) 0 view fs rest) :
      ReadsFields (.value (.optional t)) fieldNo view fs rest
  | otherWireType {t : Ty} {key : ℕ} {view rest : Bytes}
      (hkey : decodeVarint view = .ok (key, rest))
      (hcode : key % 8 ≠ t.getWireType.code) : ReadsFields (.part t) 0 view [] rest
  | part {t : Ty} {key : ℕ} {view r rest : Bytes} {fs : List (Ty × Bytes × Bytes)}
      (hkey : decodeVarint view = .ok (key, r)) (hcode : key % 8 = t.getWireType.code)
      (h : ReadsFields (.value t) 0 r fs rest) : ReadsFields (.part t) 0 view fs rest

/-- A field is read up to where its length says. -/
def Exact (view rest : Bytes) : Prop :=
  ∃ n r, decodeVarint view = .ok (n, r) ∧ n ≤ r.length ∧ rest = r.drop n

/-- Packed items that are read one after the other: the length is that of whole items, of one at
least, and fits 32 bits; or the items have no end there, and the length is that of the view. -/
def WholePacked (item : Bytes → Read Val) (view : Bytes) : Prop :=
  ∃ n r, decodeVarint view = .ok (n, r) ∧
    (Stops item (n % 2 ^ 32) r ∧ n < 2 ^ 32 ∨ ¬ Stops item (n % 2 ^ 32) r ∧ n = r.length)

/-- The bytes are a value of a type that `pb_value_size` takes, and nothing else. Packed items that
are read one after the other have to end there by themselves, unless nothing is `behind` them. -/
def WholeValue : Ty → Bytes → Bytes → Prop
  | .num k, _, b =>
    if k.wireType = .varint then varintEnd 10 b = some b.length else b.length = k.width
  | .string, _, b => ∃ n r, decodeVarint b = .ok (n, r) ∧ n = r.length
  | .message _, _, b => ∃ n r, decodeVarint b = .ok (n, r) ∧ n % 2 ^ 32 = r.length
  | .sequence t, behind, b =>
    match t.fixedWidth with
    | some _ => ∃ n r, decodeVarint b = .ok (n, r) ∧ n % 2 ^ 32 = r.length
    | none =>
      ∃ n r, decodeVarint b = .ok (n, r) ∧
        (Stops (readFresh lib S message t) (n % 2 ^ 32) (r ++ behind) ∧ n % 2 ^ 32 = r.length ∨
          ¬ Stops (readFresh lib S message t) (n % 2 ^ 32) (r ++ behind) ∧ behind = [])
  | .map _ _, _, _ => False
  | .optional t, behind, b => WholeValue t behind b

/-- The bytes are a key and a value; a key with another wire type stands alone. -/
def WholePart (t : Ty) (behind q : Bytes) : Prop :=
  ∃ key b, decodeVarint q = .ok (key, b) ∧
    if key % 8 ≠ t.getWireType.code then b = [] else WholeValue lib S message t behind b

/-- The bytes of an entry are a key and a mapped value, in this order, and nothing else. -/
def WholeEntry (k m : Ty) (view : Bytes) : Prop :=
  ∃ n r, decodeVarint view = .ok (n, r) ∧ n ≤ r.length ∧
    ∃ p q, r.take n = p ++ q ∧ WholePart lib S message k (q ++ r.drop n) p ∧
      WholePart lib S message m (r.drop n) q

/-- The bytes of a field are what its type makes of them. -/
def WholeField : Ty → Bytes → Prop
  | .message _, view => ∃ n r, decodeVarint view = .ok (n, r) ∧ n < 2 ^ 32
  | .sequence t, view =>
    match t.fixedWidth with
    | some _ => ∃ n r, decodeVarint view = .ok (n, r) ∧ n < 2 ^ 32
    | none => WholePacked (readFresh lib S message t) view
  | .map k m, view => WholeEntry lib S message k m view
  | _, _ => True

/-! ### What a call reads -/

variable {lib S message}

/-- A type whose items are packed. -/
theorem Ty.accepted_packed {t : Ty} (h : (Ty.sequence t).accepted = true)
    (ht : t.isLenprefixed = false) : ∃ k, t = .num k := by
  rw [Ty.accepted, ht, Bool.false_or, Bool.and_eq_true] at h
  cases t with
  | num k => exact ⟨k, rfl⟩
  | _ => cases h.2

theorem readsFields_of_decodeItems {t : Ty} (ht : t.isLenprefixed = true) {fieldNo fuel : ℕ}
    {vs vs' : List Val} {view rest : Bytes}
    (hitem : ∀ (v : Val) (view rest : Bytes), readFresh lib S message t view = .ok (v, rest) →
      ∃ fs, ReadsFields lib S message (.value t) 0 view fs rest)
    (h : decodeItems (readFresh lib S message t) fieldNo fuel vs view = .ok (vs', rest)) :
    ∃ fs, ReadsFields lib S message (.value (.sequence t)) fieldNo view fs rest := by
  induction fuel generalizing vs view with
  | zero => cases h
  | succ fuel ih =>
    rw [decodeItems] at h
    by_cases hnil : view = []
    · rw [if_pos hnil] at h
      cases h
      subst hnil
      exact ⟨_, .noItems⟩
    rw [if_neg hnil] at h
    cases hread : readFresh lib S message t view with
    | error e =>
      rw [hread] at h
      cases h
    | ok q =>
      obtain ⟨v, mid⟩ := q
      obtain ⟨fs, hfs⟩ := hitem v view mid hread
      rw [hread] at h
      dsimp only at h
      by_cases hmid : mid = []
      · rw [if_pos hmid] at h
        cases h
        exact ⟨fs, .lastItem ht hfs⟩
      rw [if_neg hmid] at h
      cases hkey : decodeVarint mid with
      | error e =>
        rw [hkey] at h
        cases h
      | ok q =>
        obtain ⟨key, mid'⟩ := q
        rw [hkey] at h
        dsimp only at h
        by_cases hno : key % 2 ^ 32 / 8 = fieldNo
        · rw [if_neg (fun hne => hne hno)] at h
          obtain ⟨fs', hfs'⟩ := ih h
          exact ⟨fs ++ fs', .moreItems ht hfs hkey hno hfs'⟩
        · rw [if_pos hno] at h
          cases h
          exact ⟨fs, .lastItem ht hfs⟩

theorem decodePairValue_eq_ok_iff {t : Ty} {init v : Val} {value : Bytes → Read Val}
    {view rest : Bytes} : decodePairValue t init value view = .ok (v, rest) ↔
      ∃ key r, decodeVarint view = .ok (key, r) ∧
        (if key % 8 ≠ t.getWireType.code then .ok (init, r) else value r) = .ok (v, rest) := by
  rw [decodePairValue]
  cases hv : decodeVarint view with
  | error e =>
    refine iff_of_false (fun h => nomatch h) ?_
    rintro ⟨_, _, h, -⟩
    cases h
  | ok q =>
    constructor
    · intro h
      exact ⟨_, _, rfl, h⟩
    · rintro ⟨_, _, hq, h⟩
      cases hq
      exact h

theorem readsFields_of_readPart {t : Ty}
    (hvalue : ∀ (v : Val) (view rest : Bytes), readFresh lib S message t view = .ok (v, rest) →
      ∃ fs, ReadsFields lib S message (.value t) 0 view fs rest) {v : Val} {view rest : Bytes}
    (h : readPart lib S message t view = .ok (v, rest)) :
    ∃ fs, ReadsFields lib S message (.part t) 0 view fs rest := by
  obtain ⟨key, r, hkey, h⟩ := decodePairValue_eq_ok_iff.mp h
  by_cases hcode : key % 8 = t.getWireType.code
  · rw [if_neg (fun hne => hne hcode)] at h
    obtain ⟨fs, hfs⟩ := hvalue v r rest h
    exact ⟨fs, .part hkey hcode hfs⟩
  · rw [if_pos hcode] at h
    cases h
    exact ⟨[], .otherWireType hkey hcode⟩

theorem readsFields_of_decodeEntries {k m : Ty} {fieldNo fuel : ℕ} {es es' : List Val}
    {view rest : Bytes}
    (hkeys : ∀ (v : Val) (view rest : Bytes), readPart lib S message k view = .ok (v, rest) →
      ∃ fs, ReadsFields lib S message (.part k) 0 view fs rest)
    (hmapped : ∀ (v : Val) (view rest : Bytes), readPart lib S message m view = .ok (v, rest) →
      ∃ fs, ReadsFields lib S message (.part m) 0 view fs rest)
    (h : decodeEntries (readPart lib S message k) (readPart lib S message m) fieldNo fuel es view =
      .ok (es', rest)) : ∃ fs, ReadsFields lib S message (.value (.map k m)) fieldNo view fs rest := by
  induction fuel generalizing es view with
  | zero => cases h
  | succ fuel ih =>
    rw [decodeEntries] at h
    by_cases hnil : view = []
    · rw [if_pos hnil] at h
      cases h
      subst hnil
      exact ⟨_, .noEntries⟩
    rw [if_neg hnil] at h
    cases hsize : decodeSize view with
    | error e =>
      rw [hsize] at h
      cases h
    | ok q =>
      obtain ⟨c, r⟩ := q
      rw [hsize] at h
      dsimp only at h
      cases hk : readPart lib S message k r with
      | error e =>
        rw [hk] at h
        cases h
      | ok q =>
        obtain ⟨kv, r'⟩ := q
        rw [hk] at h
        dsimp only at h
        cases hm : readPart lib S message m r' with
        | error e =>
          rw [hm] at h
          cases h
        | ok q =>
          obtain ⟨mv, mid⟩ := q
          have hentry : EntryRead lib S message k m view r r' mid :=
            ⟨⟨c, hsize⟩, ⟨kv, hk⟩, ⟨mv, hm⟩⟩
          obtain ⟨fs, hfs⟩ := hkeys kv r r' hk
          obtain ⟨fs', hfs'⟩ := hmapped mv r' mid hm
          rw [hm] at h
          dsimp only at h
          by_cases hmid : mid = []
          · rw [if_pos hmid] at h
            cases h
            exact ⟨_, .lastEntry hentry hfs hfs'⟩
          rw [if_neg hmid] at h
          cases hkey : decodeVarint mid with
          | error e =>
            rw [hkey] at h
            cases h
          | ok q =>
            obtain ⟨key, mid'⟩ := q
            rw [hkey] at h
            dsimp only at h
            by_cases hno : key % 2 ^ 32 / 8 = fieldNo
            · rw [if_neg (fun hne => hne hno)] at h
              obtain ⟨fs'', hfs''⟩ := ih h
              exact ⟨_, .moreEntries hentry hfs hfs' hkey hno hfs''⟩
            · rw [if_pos hno] at h
              cases h
              exact ⟨_, .lastEntry hentry hfs hfs'⟩

/-- A call that returns has read fields. -/
theorem readsFields_of_fromPbImpl {t : Ty} {v v' : Val} {fieldNo : ℕ} {view rest : Bytes}
    (h : fromPbImpl lib S message t v fieldNo view = .ok (v', rest)) :
    ∃ fs, ReadsFields lib S message (.value t) fieldNo view fs rest := by
  induction t generalizing v v' fieldNo view rest with
  | num k => exact ⟨_, .num h⟩
  | string => exact ⟨_, .string h⟩
  | message id => exact ⟨_, .message h⟩
  | sequence t ih =>
    rw [fromPbImpl] at h
    cases ht : t.isLenprefixed with
    | true =>
      rw [ht, if_pos rfl] at h
      cases hitems : decodeItems (readFresh lib S message t) fieldNo (view.length + 1) v.items view with
      | error e =>
        rw [hitems] at h
        cases h
      | ok q =>
        rw [hitems] at h
        cases h
        exact readsFields_of_decodeItems ht (fun _ _ _ => ih) hitems
    | false =>
      rw [ht, if_neg Bool.false_ne_true] at h
      cases hitems : decodePackedItems lib t.fixedWidth (readFresh lib S message t) v.items view with
      | error e =>
        rw [hitems] at h
        cases h
      | ok q =>
        rw [hitems] at h
        cases h
        exact ⟨_, .packed ht hitems⟩
  | map k m ihk ihm =>
    rw [fromPbImpl] at h
    cases hentries : decodeEntries (readPart lib S message k) (readPart lib S message m) fieldNo
        (view.length + 1) v.items view with
    | error e =>
      rw [hentries] at h
      cases h
    | ok q =>
      rw [hentries] at h
      cases h
      refine readsFields_of_decodeEntries (fun _ _ _ => ?_) (fun _ _ _ => ?_) hentries
      · exact readsFields_of_readPart fun _ _ _ => ihk
      · exact readsFields_of_readPart fun _ _ _ => ihm
  | optional t ih =>
    rw [fromPbImpl] at h
    cases hread : fromPbImpl lib S message t (S.fresh t) 0 view with
    | error e =>
      rw [hread] at h
      cases h
    | ok q =>
      rw [hread] at h
      cases h
      obtain ⟨fs, hfs⟩ := ih hread
      exact ⟨fs, .optional hfs⟩

/-! ### Where a field ends -/

/-- The size is the only thing that an end is compared with. -/
theorem exact_iff_of_varint {view r rest : Bytes} {n : ℕ} (hn : decodeVarint view = .ok (n, r)) :
    Exact view rest ↔ n ≤ r.length ∧ rest = r.drop n := by
  constructor
  · rintro ⟨n', r', hn', hle, hrest⟩
    rw [hn] at hn'
    cases hn'
    exact ⟨hle, hrest⟩
  · rintro ⟨hle, hrest⟩
    exact ⟨n, r, hn, hle, hrest⟩

/-- Where so many bytes are dropped as 32 bits of the size tell. -/
theorem exact_drop_iff {view r : Bytes} {n : ℕ} (hn : decodeVarint view = .ok (n, r))
    (hle : n % 2 ^ 32 ≤ r.length) : Exact view (r.drop (n % 2 ^ 32)) ↔ n < 2 ^ 32 := by
  rw [exact_iff_of_varint hn]
  constructor
  · rintro ⟨hle', hdrop⟩
    have hlen := congrArg List.length hdrop
    rw [List.length_drop, List.length_drop] at hlen
    omega
  · intro hlt
    rw [Nat.mod_eq_of_lt hlt] at hle ⊢
    exact ⟨hle, rfl⟩

theorem exact_iff_of_endsAtSize {view rest : Bytes} (h : EndsAtSize view rest) :
    Exact view rest ↔ ∃ n r, decodeVarint view = .ok (n, r) ∧ n < 2 ^ 32 := by
  obtain ⟨n, r, hn, hle, rfl⟩ := h
  rw [exact_drop_iff hn hle]
  constructor
  · intro hlt
    exact ⟨n, r, hn, hlt⟩
  · rintro ⟨n', r', hn', hlt⟩
    rw [hn] at hn'
    cases hn'
    exact hlt

theorem exact_of_decodeString {view rest : Bytes} {v : Val}
    (h : decodeString view = .ok (v, rest)) : Exact view rest := by
  obtain ⟨size, r, hv, -, hle, -, hrest⟩ := decodeString_eq_ok_iff.mp h
  exact ⟨size, r, hv, hle, hrest⟩

theorem exact_iff_of_packed {item : Bytes → Read Val} (hitem : IsItem item) {view rest : Bytes}
    {vs vs' : List Val} (h : decodePackedItems lib none item vs view = .ok (vs', rest)) :
    Exact view rest ↔ WholePacked item view := by
  obtain ⟨n, r, hn, hle, hend⟩ := decodePackedItems_end hitem h
  have hwhole : WholePacked item view ↔
      Stops item (n % 2 ^ 32) r ∧ n < 2 ^ 32 ∨ ¬ Stops item (n % 2 ^ 32) r ∧ n = r.length := by
    constructor
    · rintro ⟨n', r', hn', h⟩
      rw [hn] at hn'
      cases hn'
      exact h
    · intro h
      exact ⟨n, r, hn, h⟩
  rw [hwhole]
  rcases hend with ⟨hstops, rfl⟩ | ⟨hstops, rfl⟩
  · rw [exact_drop_iff hn hle]
    simp only [hstops, true_and, not_true_eq_false, false_and, or_false]
  · rw [exact_iff_of_varint hn]
    simp only [hstops, false_and, not_false_eq_true, true_and, false_or]
    constructor
    · rintro ⟨hle, hdrop⟩
      exact le_antisymm hle (List.drop_eq_nil_iff.mp hdrop.symm)
    · rintro rfl
      exact ⟨le_rfl, (List.drop_length).symm⟩

/-- Where a value with a size ends, by the bytes alone. -/
theorem whole_iff {f : ℕ → ℕ} {n : ℕ} {b behind r rest : Bytes}
    (hn : decodeVarint (b ++ behind) = .ok (n, r)) (hle : f n ≤ r.length)
    (hrest : rest = r.drop (f n)) :
    (∃ n r, decodeVarint b = .ok (n, r) ∧ f n = r.length) ↔ rest = behind := by
  subst hrest
  constructor
  · rintro ⟨n', u, hn', hsize⟩
    have hmore := contained_decodeVarint.isLocal _ _ _ hn' behind
    rw [hn] at hmore
    cases hmore
    rw [hsize, List.drop_left]
  · intro hdrop
    obtain ⟨u, rfl⟩ : behind <:+ r := hdrop ▸ List.drop_suffix (f n) r
    refine ⟨n, u, contained_decodeVarint.cuts b n u behind hn, ?_⟩
    have hlen := congrArg List.length hdrop
    rw [List.length_drop, List.length_append] at hlen
    rw [List.length_append] at hle
    omega

theorem whole_iff_of_endsAtSize {b behind rest : Bytes} (h : EndsAtSize (b ++ behind) rest) :
    (∃ n r, decodeVarint b = .ok (n, r) ∧ n % 2 ^ 32 = r.length) ↔ rest = behind := by
  obtain ⟨n, r, hn, hle, hrest⟩ := h
  exact whole_iff (f := (· % 2 ^ 32)) hn hle hrest

theorem whole_iff_of_num {k : Num} {b behind rest : Bytes} {v : Val}
    (h : decodeNum k (b ++ behind) = .ok (v, rest)) :
    (if k.wireType = .varint then varintEnd 10 b = some b.length else b.length = k.width) ↔
      rest = behind := by
  by_cases hk : k.wireType = .varint
  · rw [if_pos hk]
    rw [decodeNum, hk] at h
    cases hn : decodeVarint (b ++ behind) with
    | error e =>
      rw [hn] at h
      cases h
    | ok p =>
      obtain ⟨m, hend, -, hrest⟩ := decodeVarint_eq_ok_iff.mp hn
      rw [hn] at h
      cases h
      rw [hrest]
      constructor
      · intro hb
        rw [varintEnd_append hb behind] at hend
        cases hend
        exact List.drop_left
      · intro hdrop
        have hlen := congrArg List.length hdrop
        have hbound := (varintEnd_bounds hend).2.2
        rw [List.length_append] at hbound
        rw [List.length_drop, List.length_append] at hlen
        have hm : m = b.length := by omega
        rw [hm] at hend
        exact varintEnd_of_append hend le_rfl
  · rw [if_neg hk]
    have hrest : k.width ≤ (b ++ behind).length ∧ rest = (b ++ behind).drop k.width := by
      rw [decodeNum] at h
      cases hw : k.wireType with
      | varint => exact absurd hw hk
      | _ =>
        rw [hw] at h
        dsimp only at h
        split at h
        · cases h
        · cases h
          exact ⟨by omega, rfl⟩
    obtain ⟨hle, rfl⟩ := hrest
    constructor
    · intro hb
      rw [← hb, List.drop_left]
    · intro hdrop
      have hlen := congrArg List.length hdrop
      rw [List.length_drop, List.length_append] at hlen
      rw [List.length_append] at hle
      omega

theorem whole_iff_of_packed {item : Bytes → Read Val} (hitem : IsItem item) {b behind rest : Bytes}
    {vs vs' : List Val} (h : decodePackedItems lib none item vs (b ++ behind) = .ok (vs', rest)) :
    (∃ n r, decodeVarint b = .ok (n, r) ∧
      (Stops item (n % 2 ^ 32) (r ++ behind) ∧ n % 2 ^ 32 = r.length ∨
        ¬ Stops item (n % 2 ^ 32) (r ++ behind) ∧ behind = [])) ↔ rest = behind := by
  obtain ⟨n, r, hn, hle, hend⟩ := decodePackedItems_end hitem h
  constructor
  · rintro ⟨n', u, hn', hu⟩
    have hmore := contained_decodeVarint.isLocal _ _ _ hn' behind
    rw [hn] at hmore
    cases hmore
    -- both tell of the same items, so they agree on whether these stop
    rcases hend with ⟨hstops, rfl⟩ | ⟨hstops, rfl⟩ <;>
      rcases hu with ⟨hstops', hsize⟩ | ⟨hstops', hsize⟩
    · rw [hsize, List.drop_left]
    · exact absurd hstops hstops'
    · exact absurd hstops' hstops
    · exact hsize.symm
  · intro hrest
    rw [hrest] at hend
    obtain ⟨u, rfl⟩ : behind <:+ r := by
      rcases hend with ⟨-, hb⟩ | ⟨-, hb⟩
      · exact hb ▸ List.drop_suffix _ r
      · exact hb ▸ List.nil_suffix
    refine ⟨n, u, contained_decodeVarint.cuts b n u behind hn, ?_⟩
    rcases hend with ⟨hstops, hb⟩ | ⟨hstops, hb⟩
    · refine .inl ⟨hstops, ?_⟩
      have hlen := congrArg List.length hb
      rw [List.length_drop, List.length_append] at hlen
      rw [List.length_append] at hle
      omega
    · exact .inr ⟨hstops, hb⟩

/-- What a sequence of numbers reads are packed items. -/
theorem decodePackedItems_of_fromPbImpl {k : Num} {v v' : Val} {fieldNo : ℕ} {view rest : Bytes}
    (h : fromPbImpl lib S message (.sequence (.num k)) v fieldNo view = .ok (v', rest)) :
    ∃ vs, decodePackedItems lib (Ty.num k).fixedWidth (readFresh lib S message (.num k)) v.items view =
      .ok (vs, rest) := by
  have hlen : (Ty.num k).isLenprefixed = false := by cases k <;> rfl
  rw [fromPbImpl, hlen, if_neg Bool.false_ne_true] at h
  cases hitems : decodePackedItems lib (Ty.num k).fixedWidth (readFresh lib S message (.num k)) v.items
      view with
  | error e =>
    rw [hitems] at h
    cases h
  | ok q =>
    rw [hitems] at h
    cases h
    exact ⟨_, rfl⟩

/-- Where a value ends, by the bytes alone. -/
theorem wholeValue_iff {t : Ty} (hval : t.hasValueSize = true) {v v' : Val} {fieldNo : ℕ}
    {b behind rest : Bytes} (h : fromPbImpl lib S message t v fieldNo (b ++ behind) =
      .ok (v', rest)) :
    WholeValue lib S message t behind b ↔ rest = behind := by
  induction t generalizing v v' fieldNo with
  | num k => exact whole_iff_of_num h
  | string =>
    obtain ⟨size, r, hv, -, hle, -, hrest⟩ := decodeString_eq_ok_iff.mp h
    exact whole_iff (f := id) hv hle hrest
  | message id => exact whole_iff_of_endsAtSize (endsAtSize_of_message h)
  | sequence t =>
    cases t with
    | num k =>
      obtain ⟨vs, hitems⟩ := decodePackedItems_of_fromPbImpl h
      rw [WholeValue]
      cases hwidth : (Ty.num k).fixedWidth with
      | some width =>
        rw [hwidth] at hitems
        exact whole_iff_of_endsAtSize (endsAtSize_of_fixedItems hitems)
      | none =>
        rw [hwidth] at hitems
        exact whole_iff_of_packed (isItem_decodeNum k) hitems
    | _ => cases hval
  | map k m => cases hval
  | optional t ih =>
    rw [fromPbImpl] at h
    cases hread : fromPbImpl lib S message t (S.fresh t) 0 (b ++ behind) with
    | error e =>
      rw [hread] at h
      cases h
    | ok q =>
      rw [hread] at h
      cases h
      exact ih hval hread

theorem EndsAtSize.suffix {view rest : Bytes} (h : EndsAtSize view rest) : rest <:+ view := by
  obtain ⟨n, r, hn, -, rfl⟩ := h
  have hfirst : r <:+ view := contained_decodeVarint.advances _ _ _ hn
  exact (List.drop_suffix _ r).trans hfirst

/-- A value is taken off the front. -/
theorem suffix_of_fromPbImpl {t : Ty} (hval : t.hasValueSize = true) {v v' : Val} {fieldNo : ℕ}
    {view rest : Bytes} (h : fromPbImpl lib S message t v fieldNo view = .ok (v', rest)) :
    rest <:+ view := by
  induction t generalizing v v' fieldNo with
  | num k => exact (contained_decodeNum k).advances _ _ _ h
  | string =>
    obtain ⟨size, r, hv, -, -, -, rfl⟩ := decodeString_eq_ok_iff.mp h
    exact (List.drop_suffix size r).trans (contained_decodeVarint.advances _ _ _ hv)
  | message id => exact (endsAtSize_of_message h).suffix
  | sequence t =>
    cases t with
    | num k =>
      obtain ⟨vs, hitems⟩ := decodePackedItems_of_fromPbImpl h
      cases hwidth : (Ty.num k).fixedWidth with
      | some width =>
        rw [hwidth] at hitems
        exact (endsAtSize_of_fixedItems hitems).suffix
      | none =>
        rw [hwidth] at hitems
        obtain ⟨n, r, hn, -, hend⟩ := decodePackedItems_end (isItem_decodeNum k) hitems
        have hfirst : r <:+ view := contained_decodeVarint.advances _ _ _ hn
        rcases hend with ⟨-, rfl⟩ | ⟨-, rfl⟩
        · exact (List.drop_suffix _ r).trans hfirst
        · exact List.nil_suffix
    | _ => cases hval
  | map k m => cases hval
  | optional t ih =>
    rw [fromPbImpl] at h
    cases hread : fromPbImpl lib S message t (S.fresh t) 0 view with
    | error e =>
      rw [hread] at h
      cases h
    | ok q =>
      rw [hread] at h
      cases h
      exact ih hval hread

/-- A part of an entry is taken off the front. -/
theorem suffix_of_readPart {t : Ty} (hval : t.hasValueSize = true) {v : Val} {view rest : Bytes}
    (h : readPart lib S message t view = .ok (v, rest)) : rest <:+ view := by
  obtain ⟨key, r, hkey, h⟩ := decodePairValue_eq_ok_iff.mp h
  have hfirst : r <:+ view := contained_decodeVarint.advances _ _ _ hkey
  by_cases hcode : key % 8 = t.getWireType.code
  · rw [if_neg (fun hne => hne hcode)] at h
    exact (suffix_of_fromPbImpl hval h).trans hfirst
  · rw [if_pos hcode] at h
    cases h
    exact hfirst

/-- Where a part of an entry ends, by the bytes alone. -/
theorem wholePart_iff {t : Ty} (hval : t.hasValueSize = true) {v : Val} {q behind rest : Bytes}
    (h : readPart lib S message t (q ++ behind) = .ok (v, rest)) :
    WholePart lib S message t behind q ↔ rest = behind := by
  obtain ⟨key, r, hkey, h⟩ := decodePairValue_eq_ok_iff.mp h
  have hsuffix : rest <:+ r := by
    by_cases hcode : key % 8 = t.getWireType.code
    · rw [if_neg (fun hne => hne hcode)] at h
      exact suffix_of_fromPbImpl hval h
    · rw [if_pos hcode] at h
      cases h
      exact List.suffix_rfl
  -- when the key is within the part, so is where its value starts
  have hvalue : ∀ b, r = b ++ behind →
      ((if key % 8 ≠ t.getWireType.code then b = [] else WholeValue lib S message t behind b) ↔
        rest = behind) := by
    rintro b rfl
    by_cases hcode : key % 8 = t.getWireType.code
    · rw [if_neg (fun hne => hne hcode)] at h ⊢
      exact wholeValue_iff hval h
    · rw [if_pos hcode] at h ⊢
      cases h
      exact List.append_left_eq_self.symm
  constructor
  · rintro ⟨key', b, hkey', hb⟩
    have hmore := contained_decodeVarint.isLocal _ _ _ hkey' behind
    rw [hkey] at hmore
    cases hmore
    exact (hvalue b rfl).mp hb
  · rintro rfl
    obtain ⟨b, rfl⟩ := hsuffix
    exact ⟨key, b, contained_decodeVarint.cuts q key b rest hkey, (hvalue b rfl).mpr rfl⟩

theorem Ty.accepted_parts {k m : Ty} (h : (Ty.map k m).accepted = true) :
    (k.accepted = true ∧ k.hasValueSize = true) ∧ m.accepted = true ∧ m.hasValueSize = true := by
  rw [Ty.accepted, Bool.and_eq_true, Bool.and_eq_true] at h
  obtain ⟨⟨hk, hm⟩, hval⟩ := h
  refine ⟨?_, hm, hval⟩
  cases k with
  | num k => exact ⟨rfl, rfl⟩
  | string => exact ⟨rfl, rfl⟩
  | _ => simp [Ty.isNum] at hk

/-- An entry is read exactly when it is whole. -/
theorem exact_iff_of_entry {k m : Ty} (hacc : (Ty.map k m).accepted = true) {view r r' rest : Bytes}
    (h : EntryRead lib S message k m view r r' rest) :
    Exact view rest ↔ WholeEntry lib S message k m view := by
  obtain ⟨hk, hm⟩ := Ty.accepted_parts hacc
  have hk := hk.2
  have hm := hm.2
  obtain ⟨⟨c, hsize⟩, ⟨kv, hkey⟩, ⟨mv, hmapped⟩⟩ := h
  obtain ⟨n, hn, -, -⟩ := decodeSize_eq_ok_iff.mp hsize
  rw [exact_iff_of_varint hn]
  have hwhole : WholeEntry lib S message k m view ↔ n ≤ r.length ∧ ∃ p q, r.take n = p ++ q ∧
      WholePart lib S message k (q ++ r.drop n) p ∧ WholePart lib S message m (r.drop n) q := by
    constructor
    · rintro ⟨n', r', hn', h⟩
      rw [hn] at hn'
      cases hn'
      exact h
    · intro h
      exact ⟨n, r, hn, h⟩
  rw [hwhole]
  refine and_congr_right fun _ => ?_
  have hsplit := List.take_append_drop n r
  generalize r.take n = front at hsplit ⊢
  generalize r.drop n = behind at hsplit ⊢
  subst hsplit
  constructor
  · rintro rfl
    obtain ⟨q, rfl⟩ : rest <:+ r' := suffix_of_readPart hm hmapped
    obtain ⟨p, hp⟩ : q ++ rest <:+ front ++ rest := suffix_of_readPart hk hkey
    rw [← List.append_assoc] at hp
    obtain rfl := (List.append_cancel_right hp).symm
    rw [List.append_assoc] at hkey
    exact ⟨p, q, rfl, (wholePart_iff hk hkey).mpr rfl, (wholePart_iff hm hmapped).mpr rfl⟩
  · rintro ⟨p, q, rfl, hp, hq⟩
    rw [List.append_assoc] at hkey
    obtain rfl := (wholePart_iff hk hkey).mp hp
    exact (wholePart_iff hm hmapped).mp hq

theorem Ty.accepted_item {t : Ty} (h : (Ty.sequence t).accepted = true) : t.accepted = true := by
  rw [Ty.accepted, Bool.and_eq_true] at h
  exact h.1

/-- The type of a piece. -/
def Piece.ty : Piece → Ty
  | .value t | .part t => t

/-- A field is read exactly when it is whole. -/
theorem exact_iff_wholeField {p : Piece} (hacc : p.ty.accepted = true) {fieldNo : ℕ}
    {view rest : Bytes} {fs : List (Ty × Bytes × Bytes)}
    (h : ReadsFields lib S message p fieldNo view fs rest) :
    ∀ f ∈ fs, Exact f.2.1 f.2.2 ↔ WholeField lib S message f.1 f.2.1 := by
  induction h with
  | num => exact fun _ hf => nomatch hf
  | string h =>
    intro f hf
    obtain rfl := List.mem_singleton.mp hf
    exact iff_of_true (exact_of_decodeString h) trivial
  | message h =>
    intro f hf
    obtain rfl := List.mem_singleton.mp hf
    exact exact_iff_of_endsAtSize (endsAtSize_of_message h)
  | @packed t fieldNo view rest vs vs' ht h =>
    intro f hf
    obtain rfl := List.mem_singleton.mp hf
    obtain ⟨k, rfl⟩ := Ty.accepted_packed hacc ht
    rw [WholeField]
    cases hwidth : (Ty.num k).fixedWidth with
    | some width =>
      rw [hwidth] at h
      exact exact_iff_of_endsAtSize (endsAtSize_of_fixedItems h)
    | none =>
      rw [hwidth] at h
      exact exact_iff_of_packed (isItem_decodeNum k) h
  | noItems => exact fun _ hf => nomatch hf
  | lastItem _ _ ih => exact ih (Ty.accepted_item hacc)
  | moreItems _ _ _ _ _ ih ihmore =>
    intro f hf
    rcases List.mem_append.mp hf with hf | hf
    · exact ih (Ty.accepted_item hacc) f hf
    · exact ihmore hacc f hf
  | noEntries => exact fun _ hf => nomatch hf
  | lastEntry h _ _ ihk ihm =>
    obtain ⟨hk, hm⟩ := Ty.accepted_parts hacc
    intro f hf
    rw [List.mem_cons, List.mem_append] at hf
    rcases hf with rfl | hf | hf
    · exact exact_iff_of_entry hacc h
    · exact ihk hk.1 f hf
    · exact ihm hm.1 f hf
  | moreEntries h _ _ _ _ _ ihk ihm ihmore =>
    obtain ⟨hk, hm⟩ := Ty.accepted_parts hacc
    intro f hf
    rw [List.mem_cons, List.mem_append, List.mem_append] at hf
    rcases hf with rfl | (hf | hf) | hf
    · exact exact_iff_of_entry hacc h
    · exact ihk hk.1 f hf
    · exact ihm hm.1 f hf
    · exact ihmore hacc f hf
  | optional _ ih => exact ih hacc
  | otherWireType => exact fun _ hf => nomatch hf
  | part _ _ _ ih => exact ih hacc

/-- The fields of a call that returns are read up to where their lengths say, those that are whole
and no others. -/
theorem selfContained_iff {t : Ty} (hacc : t.accepted = true) {v v' : Val} {fieldNo : ℕ}
    {view rest : Bytes} (h : fromPbImpl lib S message t v fieldNo view = .ok (v', rest)) :
    (∃ fs, ReadsFields lib S message (.value t) fieldNo view fs rest) ∧
      ∀ fs, ReadsFields lib S message (.value t) fieldNo view fs rest →
        ∀ f ∈ fs, Exact f.2.1 f.2.2 ↔ WholeField lib S message f.1 f.2.1 := by
  refine ⟨readsFields_of_fromPbImpl h, fun fs hfs => ?_⟩
  exact exact_iff_wholeField (p := .value t) hacc hfs

/-- `std::vector<int32_t>` with two numbers, and a field behind it. -/
theorem selfContained_two : (∃ fs, ReadsFields .bytes [] (fun _ _ _ => .error .throws)
    (.value (.sequence (.num (.integral .w32 true)))) 1 [2, 1, 5, 16, 7] fs [16, 7]) ∧
      ∀ fs, ReadsFields .bytes [] (fun _ _ _ => .error .throws)
        (.value (.sequence (.num (.integral .w32 true)))) 1 [2, 1, 5, 16, 7] fs [16, 7] →
        ∀ f ∈ fs, Exact f.2.1 f.2.2 ↔
          WholeField .bytes [] (fun _ _ _ => .error .throws) f.1 f.2.1 := by
  have hread : fromPbImpl .bytes [] (fun _ _ _ => .error .throws)
      (.sequence (.num (.integral .w32 true))) (.list []) 1 [2, 1, 5, 16, 7] =
        .ok (.list [.num 1, .num 5], [16, 7]) := rfl
  exact selfContained_iff rfl hread

/-- `std::vector<int32_t>` with no numbers takes the field behind it for its items. -/
theorem not_selfContained_empty : ¬ ∀ v' rest fs, fromPbImpl .bytes [] (fun _ _ _ => .error .throws)
    (.sequence (.num (.integral .w32 true))) (.list []) 1 [0, 16, 5] = .ok (v', rest) →
      ReadsFields .bytes [] (fun _ _ _ => .error .throws)
        (.value (.sequence (.num (.integral .w32 true)))) 1 [0, 16, 5] fs rest → ∀ f ∈ fs,
          Exact f.2.1 f.2.2 := by
  intro h
  have hread : fromPbImpl .bytes [] (fun _ _ _ => .error .throws)
      (.sequence (.num (.integral .w32 true))) (.list []) 1 [0, 16, 5] =
        .ok (.list [.num 16, .num 5], []) := rfl
  have hitems : decodePackedItems .bytes (Ty.num (.integral .w32 true)).fixedWidth
      (readFresh .bytes [] (fun _ _ _ => .error .throws) (.num (.integral .w32 true))) [] [0, 16, 5] =
        .ok ([.num 16, .num 5], []) := rfl
  obtain ⟨n, r, hn, -, hrest⟩ := h _ _ _ hread (.packed rfl hitems) _ List.mem_cons_self
  have hsize : decodeVarint [0, 16, 5] = .ok (0, [16, 5]) := rfl
  rw [hsize] at hn
  cases hn
  cases hrest

end Fields

end Yalantinglibs.Iguana.Pb
