import Yalantinglibs.StructPack.Type

/-!
# Layout: trivially serializable types, their size and their padding

The predicate `is_trivial_serializable` decides which types are written as their object
representation. Such a type needs a size, and a struct that is trivial but for `compatible`
members and `trivial_view`s is written member by member with the padding that the struct
without them would have.

A struct holds by value only structs defined before it, so the facts about the structs are
computed along the list of definitions: `layouts` grows a table, and the functions on types
look a struct up in the table built so far.

## Main definitions

* `Layout` — what the table records of a struct
* `isTrivialSerializableIn`, `sizeIn`, `alignIn` — `is_trivial_serializable`, `sizeof` and
  `alignof`, relative to a table
* `paddingSizes` — `align::padding_size`
* `TypeEnv.isTrivialSerializable`, `TypeEnv.sizeof` and so on — the same for a program
-/

set_option autoImplicit false

namespace Yalantinglibs.StructPack

/-- What is known of a struct once it is defined. -/
structure Layout where
  /-- `is_trivial_serializable<T>` -/
  trivial : Bool
  /-- `is_trivial_serializable<T, true>` -/
  trivialIgnoringCompatible : Bool
  /-- `sizeof`, meaningful for a trivially serializable struct -/
  size : ℕ
  /-- `alignof`, likewise -/
  align : ℕ
  /-- `align::alignment_v` -/
  alignmentV : ℕ
  /-- `align::pack_alignment_v` -/
  packAlignmentV : ℕ
  /-- `align::padding_size`: before each member, and behind the last -/
  paddingSize : List ℕ
  /-- what `calculate_trival_obj_size` adds up for the struct -/
  objSize : ℕ

/-! ### Size and alignment of object representations -/

/-- The next multiple of `a` from `x` on. -/
def alignUp (x a : ℕ) : ℕ := if x % a = 0 then x else x + (a - x % a)

/-- The alignment of a member under `#pragma pack`. -/
def packed (pack a : ℕ) : ℕ := if pack = 0 then a else min a pack

/-- The offset behind the last of the members given by size and alignment. -/
def membersEnd (pack : ℕ) : ℕ → List (ℕ × ℕ) → ℕ
  | offset, [] => offset
  | offset, (size, a) :: ms => membersEnd pack (alignUp offset (packed pack a) + size) ms

/-- The offsets of the members. -/
def memberOffsets (pack : ℕ) : ℕ → List (ℕ × ℕ) → List ℕ
  | _, [] => []
  | offset, (size, a) :: ms =>
    alignUp offset (packed pack a) ::
      memberOffsets pack (alignUp offset (packed pack a) + size) ms

/-- The alignment of a class with these members. -/
def classAlign (pack alignas : ℕ) (ms : List (ℕ × ℕ)) : ℕ :=
  max alignas ((ms.map fun m => packed pack m.2).foldr max 1)

/-- The size of a class with these members. -/
def classSize (pack alignas : ℕ) (ms : List (ℕ × ℕ)) : ℕ :=
  alignUp (membersEnd pack 0 ms) (classAlign pack alignas ms)

/-- `alignof` of a type with an object representation. -/
def alignIn (ls : List Layout) : Ty → ℕ
  | .fundamental k => k.size
  | .enumeration _ k => k.size
  | .array t _ => alignIn ls t
  | .pair a b => max (alignIn ls a) (alignIn ls b)
  | .struct name => (ls[name]?.map Layout.align).getD 1
  | _ => 1

/-- `sizeof` of a type with an object representation. -/
def sizeIn (ls : List Layout) : Ty → ℕ
  | .fundamental k => k.size
  | .enumeration _ k => k.size
  | .array t n => n * sizeIn ls t
  | .pair a b => classSize 0 0 [(sizeIn ls a, alignIn ls a), (sizeIn ls b, alignIn ls b)]
  | .struct name => (ls[name]?.map Layout.size).getD 0
  | _ => 1

/-! ### Trivial serializability -/

/-- `is_trivial_serializable<T, ignore_compatible_field, parent_tag>`. -/
def isTrivialSerializableIn (ls : List Layout) (ignoreCompatible : Bool) (tag : SpConfig) :
    Ty → Bool
  | .monostate => true
  | .varInt _ => false
  | .compatible _ _ | .trivialView _ => ignoreCompatible
  | .enumeration _ _ => true
  | .fundamental k => !isVarint tag (.fundamental k)
  | .array t _ => isTrivialSerializableIn ls ignoreCompatible SpConfig.DEFAULT t
  | .pair a b =>
    isTrivialSerializableIn ls ignoreCompatible SpConfig.DEFAULT a &&
      isTrivialSerializableIn ls ignoreCompatible SpConfig.DEFAULT b
  | .struct name =>
    (ls[name]?.map fun l =>
      if ignoreCompatible then l.trivialIgnoringCompatible else l.trivial).getD false
  | _ => false

/-! ### Padding of structs written member by member -/

/-- `align::alignment_v` of a member. -/
def alignmentIn (ls : List Layout) : Ty → ℕ
  | .compatible _ _ => 0
  | .trivialView t => alignIn ls t
  | .pair a b =>
    if isTrivialSerializableIn ls false SpConfig.DEFAULT (.pair a b) then
      alignIn ls (.pair a b)
    else max (alignmentIn ls a) (alignmentIn ls b)
  | .struct name => (ls[name]?.map Layout.alignmentV).getD 0
  | t => alignIn ls t

/-- `align::pack_alignment_v` where none is declared: the largest member alignment. -/
def defaultPackAlignment (ls : List Layout) (ts : List Ty) : ℕ :=
  (ts.map (alignmentIn ls)).foldr max 0

/-- The padding `calculate_padding_size_impl` puts before a member of alignment `a`. -/
def paddingBefore (packAlignmentV a offset : ℕ) : ℕ :=
  if a ≠ 0 ∧ offset % a ≠ 0 then min (packAlignmentV - 1) (a - offset % a) else 0

/-- The padding behind the last member, for a struct of alignment `a`. -/
def paddingBehind (a offset : ℕ) : ℕ :=
  if 0 < a ∧ offset % a ≠ 0 then a - offset % a else 0

/-- `calculate_padding_size` over members given by alignment and object size, a
`compatible` member as `none`. -/
def paddingSizes (packAlignmentV alignmentV : ℕ) : ℕ → List (Option (ℕ × ℕ)) → List ℕ
  | offset, [] => [paddingBehind alignmentV offset]
  | offset, none :: ms => 0 :: paddingSizes packAlignmentV alignmentV offset ms
  | offset, some (a, size) :: ms =>
    let p := paddingBefore packAlignmentV a offset
    p :: paddingSizes packAlignmentV alignmentV (offset + p + size) ms

/-- `calculate_trival_obj_size`: the bytes that a member of a padded struct takes. -/
def objSizeIn (ls : List Layout) : Ty → ℕ
  | .compatible _ _ => 0
  | .trivialView t => sizeIn ls t
  | .pair a b =>
    if isTrivialSerializableIn ls false SpConfig.DEFAULT (.pair a b) then
      sizeIn ls (.pair a b)
    else
      let alignment := max (alignmentIn ls a) (alignmentIn ls b)
      let member (t : Ty) (size : ℕ) :=
        if t.isCompatible then none else some (alignmentIn ls t, size)
      (paddingSizes alignment alignment 0 [member a (objSizeIn ls a), member b (objSizeIn ls b)]).sum
        + objSizeIn ls a + objSizeIn ls b
  | .struct name =>
    (ls[name]?.map fun l => if l.trivial then l.size else l.objSize).getD 0
  | t => sizeIn ls t

/-- A member as `paddingSizes` takes it. -/
def paddedMember (ls : List Layout) (t : Ty) : Option (ℕ × ℕ) :=
  if t.isCompatible then none else some (alignmentIn ls t, objSizeIn ls t)

/-- The row of a struct in the table. -/
def structLayout (ls : List Layout) (d : StructDef) (tag : SpConfig) : Layout :=
  let trivial := !d.userDefinedRefl &&
    d.fields.all (isTrivialSerializableIn ls false tag)
  let members := d.fields.map fun t => (sizeIn ls t, alignIn ls t)
  let align := classAlign d.packAlignment d.alignment members
  let defaultPack := defaultPackAlignment ls d.fields
  let packAlignmentV := if d.packAlignment = 0 then defaultPack else d.packAlignment
  let alignmentV :=
    if d.alignment ≠ 0 then d.alignment
    else if trivial then align
    else packAlignmentV
  let paddingSize := paddingSizes packAlignmentV alignmentV 0 (d.fields.map (paddedMember ls))
  { trivial
    trivialIgnoringCompatible := !d.userDefinedRefl &&
      d.fields.all (isTrivialSerializableIn ls true tag)
    size := classSize d.packAlignment d.alignment members
    align
    alignmentV
    packAlignmentV
    paddingSize
    objSize := paddingSize.sum + (d.fields.map (objSizeIn ls)).sum }

namespace TypeEnv

variable (Γ : TypeEnv)

/-- The table of a list of definitions, built from the first on. -/
def layoutsFrom (ls : List Layout) : List StructDef → List Layout
  | [] => ls
  | d :: ds =>
    layoutsFrom (ls ++ [structLayout ls d ((d.config.or Γ.setDefault).getD SpConfig.DEFAULT)]) ds

/-- The table of the program. -/
def layouts : List Layout := Γ.layoutsFrom [] Γ.structs

/-- `is_trivial_serializable<T>`. -/
def isTrivialSerializable (t : Ty) : Bool :=
  isTrivialSerializableIn Γ.layouts false SpConfig.DEFAULT t

/-- `is_trivial_serializable<T, true>`. -/
def isTrivialIgnoringCompatible (t : Ty) : Bool :=
  isTrivialSerializableIn Γ.layouts true SpConfig.DEFAULT t

/-- `sizeof` of a trivially serializable type. -/
def sizeof (t : Ty) : ℕ := sizeIn Γ.layouts t

/-- `align::padding_size` of a class type: before each member, and behind the last. -/
def paddingSize : Ty → List ℕ
  | .struct name => (Γ.layouts[name]?.map Layout.paddingSize).getD []
  | .pair a b =>
    let alignment := max (alignmentIn Γ.layouts a) (alignmentIn Γ.layouts b)
    paddingSizes alignment alignment 0 ([a, b].map (paddedMember Γ.layouts))
  | _ => []

/-- `align::total_padding_size`. -/
def totalPaddingSize (t : Ty) : ℕ := (Γ.paddingSize t).sum

@[simp] theorem isTrivialSerializable_monostate : Γ.isTrivialSerializable .monostate = true := rfl

@[simp] theorem isTrivialSerializable_compatible (t : Ty) (v : Version) :
    Γ.isTrivialSerializable (.compatible t v) = false := rfl

@[simp] theorem isTrivialSerializable_trivialView (t : Ty) :
    Γ.isTrivialSerializable (.trivialView t) = false := rfl

@[simp] theorem isTrivialSerializable_varInt (k : VarIntKind) :
    Γ.isTrivialSerializable (.varInt k) = false := rfl

@[simp] theorem isTrivialSerializable_fundamental (k : Fundamental) :
    Γ.isTrivialSerializable (.fundamental k) = true := rfl

@[simp] theorem isTrivialSerializable_enumeration (n : ℕ) (k : Fundamental) :
    Γ.isTrivialSerializable (.enumeration n k) = true := rfl

@[simp] theorem isTrivialSerializable_array (t : Ty) (n : ℕ) :
    Γ.isTrivialSerializable (.array t n) = Γ.isTrivialSerializable t := rfl

@[simp] theorem isTrivialSerializable_pair (a b : Ty) :
    Γ.isTrivialSerializable (.pair a b) =
      (Γ.isTrivialSerializable a && Γ.isTrivialSerializable b) := rfl

/-! ### Reading the table -/

private theorem prefix_layoutsFrom (ds : List StructDef) (ls : List Layout) :
    ls <+: Γ.layoutsFrom ls ds := by
  induction ds generalizing ls with
  | nil => exact List.prefix_refl ls
  | cons d ds ih => exact (List.prefix_append _ _).trans (ih _)

private theorem layoutsFrom_getElem? (ds : List StructDef) (ls : List Layout) {i : ℕ}
    {d : StructDef} (hd : ds[i]? = some d) :
    ∃ ls', ls' <+: Γ.layoutsFrom ls ds ∧ (Γ.layoutsFrom ls ds)[ls.length + i]? =
      some (structLayout ls' d ((d.config.or Γ.setDefault).getD SpConfig.DEFAULT)) := by
  induction ds generalizing ls i with
  | nil => simp at hd
  | cons e ds ih =>
    rw [layoutsFrom]
    cases i with
    | zero =>
      obtain rfl : e = d := by simpa using hd
      have hpre := prefix_layoutsFrom Γ ds (ls ++ [structLayout ls e
        ((e.config.or Γ.setDefault).getD SpConfig.DEFAULT)])
      refine ⟨ls, (List.prefix_append _ _).trans hpre, ?_⟩
      obtain ⟨rest, hrest⟩ := hpre
      rw [← hrest]
      simp
    | succ i =>
      obtain ⟨ls', hpre, h⟩ := ih (ls ++ [_]) (by simpa using hd)
      refine ⟨ls', hpre, ?_⟩
      rw [← h]
      congr 1
      simp
      omega

/-- The row of a struct is computed from the rows before it. -/
theorem layouts_getElem? {name : ℕ} {d : StructDef} (hd : Γ.structs[name]? = some d) :
    ∃ ls, ls <+: Γ.layouts ∧
      Γ.layouts[name]? = some (structLayout ls d (Γ.getTypeConfig (.struct name))) := by
  obtain ⟨ls, hpre, h⟩ := layoutsFrom_getElem? Γ Γ.structs [] hd
  refine ⟨ls, hpre, ?_⟩
  simpa [layouts, getTypeConfig, hd] using h

theorem layouts_length : Γ.layouts.length = Γ.structs.length := by
  have key : ∀ ds ls, (Γ.layoutsFrom ls ds).length = ls.length + ds.length := by
    intro ds
    induction ds with
    | nil => intro ls; rfl
    | cons d ds ih =>
      intro ls
      rw [layoutsFrom, ih]
      simp
      omega
  simpa [layouts] using key Γ.structs []

end TypeEnv

/-! ### Padding -/

theorem le_alignUp (x a : ℕ) : x ≤ alignUp x a := by
  rw [alignUp]
  split <;> omega

@[simp] theorem alignUp_zero (a : ℕ) : alignUp 0 a = 0 := by
  simp [alignUp]

theorem paddingSizes_length (p a o : ℕ) (ms : List (Option (ℕ × ℕ))) :
    (paddingSizes p a o ms).length = ms.length + 1 := by
  induction ms generalizing o with
  | nil => rfl
  | cons m ms ih => cases m <;> simp [paddingSizes, ih]

/-- Nothing is put before the first member. -/
theorem paddingSizes_head (p a : ℕ) (ms : List (Option (ℕ × ℕ))) :
    (paddingSizes p a 0 ms).head? = some 0 := by
  rcases ms with _ | ⟨_ | ⟨al, size⟩, ms⟩ <;> simp [paddingSizes, paddingBehind, paddingBefore]

theorem paddingSizes_sum_tail (p a : ℕ) (ms : List (Option (ℕ × ℕ))) :
    (paddingSizes p a 0 ms).tail.sum = (paddingSizes p a 0 ms).sum := by
  have h := paddingSizes_head p a ms
  cases hl : paddingSizes p a 0 ms with
  | nil => rfl
  | cons x xs =>
    rw [hl] at h
    obtain rfl : x = 0 := by simpa using h
    simp

namespace TypeEnv

variable (Γ : TypeEnv)

/-- A class type: a pair or a struct. -/
def isClass : Ty → Bool
  | .pair _ _ | .struct _ => true
  | _ => false

/-- The padding of a class type is that of its members, and none stands before the first. -/
theorem paddingSize_eq {t : Ty} (h : isClass t = true) :
    Γ.paddingSize t = [] ∧ Γ.getTypes t = [] ∨
      ∃ p a ms, Γ.paddingSize t = paddingSizes p a 0 ms ∧ ms.length = (Γ.getTypes t).length := by
  cases t with
  | pair a b => exact .inr ⟨_, _, _, rfl, rfl⟩
  | struct name =>
    cases hd : Γ.structs[name]? with
    | none =>
      have hl : Γ.layouts[name]? = none := by
        rw [List.getElem?_eq_none_iff, layouts_length]
        exact List.getElem?_eq_none_iff.mp hd
      exact .inl ⟨by simp [paddingSize, hl], by simp [getTypes, fields, hd]⟩
    | some d =>
      obtain ⟨ls, -, hl⟩ := Γ.layouts_getElem? hd
      have hrow : Γ.paddingSize (.struct name) =
          (structLayout ls d (Γ.getTypeConfig (.struct name))).paddingSize := by
        simp only [paddingSize, hl, Option.map_some, Option.getD_some]
      exact .inr ⟨_, _, d.fields.map (paddedMember ls), hrow, by simp [getTypes, fields, hd]⟩
  | _ => simp [isClass] at h

theorem paddingSize_tail_length {t : Ty} (h : isClass t = true) :
    (Γ.paddingSize t).tail.length = (Γ.getTypes t).length := by
  rcases Γ.paddingSize_eq h with ⟨hp, ht⟩ | ⟨p, a, ms, hp, hms⟩
  · rw [hp, ht]
    rfl
  · rw [hp, List.length_tail, paddingSizes_length, hms, Nat.add_sub_cancel]

theorem paddingSize_tail_sum {t : Ty} (h : isClass t = true) :
    (Γ.paddingSize t).tail.sum = Γ.totalPaddingSize t := by
  rw [totalPaddingSize]
  rcases Γ.paddingSize_eq h with ⟨hp, ht⟩ | ⟨p, a, ms, hp, hms⟩
  · rw [hp]
    rfl
  · rw [hp, paddingSizes_sum_tail]

/-- A pair is as long as its second member needs. -/
theorem le_sizeof_pair (a b : Ty) :
    alignUp (Γ.sizeof a) (alignIn Γ.layouts b) + Γ.sizeof b ≤ Γ.sizeof (.pair a b) := by
  have : Γ.sizeof (.pair a b) = alignUp (alignUp (alignUp 0 (alignIn Γ.layouts a) + Γ.sizeof a)
      (alignIn Γ.layouts b) + Γ.sizeof b) _ := rfl
  rw [this, alignUp_zero, Nat.zero_add]
  exact le_alignUp _ _

end TypeEnv

end Yalantinglibs.StructPack
