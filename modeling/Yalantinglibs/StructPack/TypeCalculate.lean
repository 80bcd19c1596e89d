import Yalantinglibs.StructPack.DerivedHelper
import Yalantinglibs.StructPack.Layout
import Yalantinglibs.StructPack.Md5
import Yalantinglibs.Data.PathSearch
import Mathlib.Data.List.Dedup
import Mathlib.Data.List.Sort

/-!
# Compile-time facts about a type

`type_calculate.hpp` and `type_id.hpp`: the type literal that names the wire format of a
type, its hash, and the questions that decide the header of a message. Does the type hold a
container? A `compatible` member? With which versions? These walk the type along its
members and stop where they meet one of their parents again.

## Main definitions

* `components` — the types a type is made of
* `TypeEnv.checkIfHasContainer`, `TypeEnv.existCompatibleMember`,
  `TypeEnv.compatibleVersionNumber`
* `TypeEnv.checkIfAddTypeLiteral`, `TypeEnv.checkIfDisableHashHead`,
  `TypeEnv.checkHasMetainfo`
* `TypeEnv.getTypeLiteral`, `TypeEnv.getTypesCode`
* `TypeEnv.dispatch` — the class that an object behind a pointer to a base class is taken for

## Main results

* `checkIfHasContainer_iff`, `mem_visitCompatible_iff` — the walks find exactly what can be
  reached
* `mem_compatibleVersionNumber`, `nodup_compatibleVersionNumber`
-/

set_option autoImplicit false

namespace Yalantinglibs.StructPack

open PathSearch

/-! ### The type graph -/

namespace TypeEnv

variable (Γ : TypeEnv)

/-- The types that a type holds directly. The walks do not follow a pointer to a base class. -/
def components : Ty → List Ty
  | .fundamental _ | .enumeration _ _ | .varInt _ | .monostate | .polymorphic _ => []
  | .trivialView t | .container _ t | .set _ t | .array t _ | .optional t | .uniquePtr t
  | .compatible t _ => [t]
  | .map _ k m => [k, m]
  | .variant ts | .tuple ts => ts
  | .expected t e => [t, e]
  | .pair a b => [a, b]
  | .struct name => Γ.fields name

mutual

/-- The types written out in a type expression, itself included, with the base classes that are
pointed to. -/
def subterms : Ty → List Ty
  | .fundamental k => [.fundamental k]
  | .enumeration n k => [.enumeration n k]
  | .varInt k => [.varInt k]
  | .monostate => [.monostate]
  | .trivialView t => .trivialView t :: subterms t
  | .container k t => .container k t :: subterms t
  | .set k t => .set k t :: subterms t
  | .map c k m => .map c k m :: (subterms k ++ subterms m)
  | .array t n => .array t n :: subterms t
  | .optional t => .optional t :: subterms t
  | .uniquePtr t => .uniquePtr t :: subterms t
  | .polymorphic base => [.polymorphic base, .struct base]
  | .variant ts => .variant ts :: subtermsAll ts
  | .expected t e => .expected t e :: (subterms t ++ subterms e)
  | .pair a b => .pair a b :: (subterms a ++ subterms b)
  | .tuple ts => .tuple ts :: subtermsAll ts
  | .struct name => [.struct name]
  | .compatible t v => .compatible t v :: subterms t

def subtermsAll : List Ty → List Ty
  | [] => []
  | t :: ts => subterms t ++ subtermsAll ts

end

/-- Every type that a walk from `t` can meet. -/
def nodes (t : Ty) : List Ty :=
  subterms t ++ Γ.structs.flatMap fun d => subtermsAll d.fields

/-- Enough for a walk that never enters a node twice on its path. -/
def searchFuel (t : Ty) : ℕ := (Γ.nodes t).length + 1

/-- Where the search for containers stops: at one, and at a pointer to a base class, since it is
not known whether the class of its object has one. -/
def isContainer : Ty → Bool
  | .container _ _ | .set _ _ | .map _ _ _ | .polymorphic _ => true
  | _ => false

/-- Where `check_if_has_container` goes on: it answers at a container. -/
def containerSteps (t : Ty) : List Ty := if isContainer t then [] else Γ.components t

/-- `check_if_has_container`. -/
def checkIfHasContainer (t : Ty) : Bool :=
  (visit Γ.containerSteps (Γ.searchFuel t) [] t).any isContainer

/-- Where the searches for `compatible` members go on: not inside such a member. -/
def compatibleSteps (t : Ty) : List Ty := if t.isCompatible then [] else Γ.components t

/-- The types met by the searches for `compatible` members. -/
def visitCompatible (t : Ty) : List Ty := visit Γ.compatibleSteps (Γ.searchFuel t) [] t

/-- The version of a `compatible` type. -/
def versionOf? : Ty → Option Version
  | .compatible _ v => some v
  | _ => none

/-- `exist_compatible_member<T>`. -/
def existCompatibleMember (t : Ty) : Bool :=
  (Γ.getTypes t).any fun u => (Γ.visitCompatible u).any Ty.isCompatible

/-- `exist_compatible_member<T, version>`. -/
def existCompatibleMemberOf (version : Version) (t : Ty) : Bool :=
  (Γ.getTypes t).any fun u => (Γ.visitCompatible u).any fun x => versionOf? x = some version

/-- `compatible_version_number<T>`: the versions, sorted and each once. -/
def compatibleVersionNumber (t : Ty) : List Version :=
  (((Γ.visitCompatible t).filterMap versionOf?).insertionSort fun v w => v.1 ≤ w.1).dedup

/-! ### Configuration -/

/-- `check_if_add_type_literal<conf, T>`. -/
def checkIfAddTypeLiteral (conf : SpConfig) (t : Ty) : Bool :=
  if conf &&& 0b11 = SpConfig.DEFAULT then
    if Γ.getTypeConfig t &&& 0b11 = SpConfig.DEFAULT then !Γ.ndebug
    else Γ.getTypeConfig t &&& 0b11 = SpConfig.ENABLE_TYPE_INFO
  else conf &&& 0b11 = SpConfig.ENABLE_TYPE_INFO

/-- `check_if_disable_hash_head<conf, T>`. -/
def checkIfDisableHashHead (conf : SpConfig) (t : Ty) : Bool :=
  if conf &&& 0b11 = SpConfig.DEFAULT then
    Γ.getTypeConfig t &&& 0b11 = SpConfig.DISABLE_ALL_META_INFO
  else conf &&& 0b11 = SpConfig.DISABLE_ALL_META_INFO

/-- The assertion inside `check_if_disable_hash_head`: no `compatible` member without the
hash head. A program that breaks it is not compiled. -/
def DisableHashHeadAllowed (conf : SpConfig) (t : Ty) : Prop :=
  Γ.checkIfDisableHashHead conf t = true → Γ.existCompatibleMember t = false

/-- `check_has_metainfo<conf, T>`. -/
def checkHasMetainfo (conf : SpConfig) (t : Ty) : Bool :=
  Γ.existCompatibleMember t ||
    (!Γ.checkIfDisableHashHead conf t && Γ.checkIfAddTypeLiteral conf t) ||
    (Γ.checkIfDisableHashHead conf t && Γ.checkIfHasContainer t)

/-- `get_args_type`. -/
def getArgsType : List Ty → Ty
  | [t] => t
  | ts => .tuple ts

/-! ### Type literals -/

/-- The type id of an arithmetic type. -/
def getIntegralType : Fundamental → ℕ
  | .int32 => 1
  | .uint32 => 2
  | .int64 | .longLong => 3
  | .uint64 | .unsignedLongLong => 4
  | .int8 => 5
  | .uint8 => 6
  | .int16 => 7
  | .uint16 => 8
  | .bool => 11
  | .char8 => 12
  | .char16 => 13
  | .char32 => 14
  | .float32 => 17
  | .float64 => 18

/-- `get_varint_type`: signedness and size, and whether the parent asks for fast coding. -/
def getVarintType (tag : SpConfig) (f : VarintForm) : ℕ :=
  (if f.signed then 0 else 2) + (if f.size = 8 then 1 else 0) +
    (if isEnableFastVarintCoding tag then 24 else 20)

def structId : ℕ := 253
def typeEndFlag : ℕ := 255
def typeEndFlagWithId : ℕ := 252
def circleFlag : ℕ := 251

/-- `get_type_id<T, parent_tag>`. -/
def getTypeId (tag : SpConfig) (t : Ty) : ℕ :=
  match varintForm tag t with
  | some f => getVarintType tag f
  | none =>
    match t with
    | .compatible _ _ => 0
    | .fundamental k | .enumeration _ k => getIntegralType k
    | .varInt _ => 0
    | .monostate => 250
    | .container .string _ | .container .stringView _ => 128
    | .container _ _ => 132
    | .array _ _ => 129
    | .map _ _ _ => 130
    | .set _ _ => 131
    | .optional _ | .uniquePtr _ => 133
    | .variant _ => 134
    | .expected _ _ => 135
    | .polymorphic _ => 137
    | .trivialView _ | .pair _ _ | .tuple _ | .struct _ => structId

/-- `get_size_literal`: base 127, low digit first, the last digit marked by its range. The
first argument bounds the digits. -/
def getSizeLiteral : ℕ → ℕ → Bytes
  | 0, size => [UInt8.ofNat (size + 129)]
  | k + 1, size =>
    if size < 127 then [UInt8.ofNat (size + 129)]
    else UInt8.ofNat (size % 127 + 1) :: getSizeLiteral k (size / 127)

/-- The size literal of at most eight digits. -/
def sizeLiteral (size : ℕ) : Bytes := getSizeLiteral 7 size

/-- `check_circle`: one more than the position of `t` among its parents, or `0`. -/
def checkCircle (t : Ty) (parents : List Ty) : ℕ :=
  if t ∈ parents then parents.idxOf t + 1 else 0

/-- `get_type_end_flag`. -/
def getTypeEndFlag : Ty → Bytes
  | .struct name =>
    match Γ.structs[name]?.bind StructDef.packId with
    | some id => UInt8.ofNat typeEndFlagWithId :: sizeLiteral id
    | none => [UInt8.ofNat typeEndFlag]
  | _ => [UInt8.ofNat typeEndFlag]

/-- `align::pack_alignment_v` of a class type. -/
def packAlignmentV : Ty → ℕ
  | .struct name => (Γ.layouts[name]?.map Layout.packAlignmentV).getD 0
  | t => defaultPackAlignment Γ.layouts (Γ.getTypes t)

/-- The part of a struct literal that names its layout. -/
def alignmentLiteral (t : Ty) : Bytes :=
  if Γ.isTrivialIgnoringCompatible t then
    sizeLiteral (Γ.packAlignmentV t) ++ sizeLiteral (alignmentIn Γ.layouts t)
  else []

/-- `get_type_literal<Arg, ParentArgs...>`. -/
def typeLiteral : ℕ → List Ty → Ty → Bytes
  | 0, _, _ => []
  | fuel + 1, parents, .trivialView t => typeLiteral fuel parents t
  | fuel + 1, parents, t =>
    if checkCircle t parents ≠ 0 then
      UInt8.ofNat circleFlag :: sizeLiteral (checkCircle t parents - 2)
    else
      let tag := match parents with
        | [] => SpConfig.DEFAULT
        | parent :: _ => Γ.getParentTag parent
      let begin : Bytes := [UInt8.ofNat (getTypeId tag t)]
      let member := typeLiteral fuel (t :: parents)
      match t with
      | .struct _ | .pair _ _ | .tuple _ =>
        begin ++ (Γ.getTypes t).flatMap member ++ Γ.alignmentLiteral t ++ Γ.getTypeEndFlag t
      | .variant ts => begin ++ ts.flatMap member ++ [UInt8.ofNat typeEndFlag]
      | .array u n => begin ++ member u ++ sizeLiteral n
      | .uniquePtr u | .container _ u | .optional u | .set _ u => begin ++ member u
      | .polymorphic base => begin ++ member (.struct base)
      | .map _ k m => begin ++ member k ++ member m
      | .expected u e => begin ++ member u ++ member e
      | .compatible _ _ => []
      | _ => begin

/-- `get_types_literal`: the literal of a type without parents. The terminating zero that is
written behind it is not part of it. -/
def getTypeLiteral (t : Ty) : Bytes := Γ.typeLiteral (Γ.searchFuel t) [] t

/-- `get_types_code`. -/
def getTypesCode (t : Ty) : ℕ := (MD5.hash32 (Γ.getTypeLiteral t) &&& 0xFFFFFFFE).toNat

/-- The lowest bit of a type code is free for the metainfo flag. -/
theorem getTypesCode_even (t : Ty) : Γ.getTypesCode t % 2 = 0 := by
  have h : (0xFFFFFFFE : UInt32).toNat = 2 ^ 32 - 2 := rfl
  rw [getTypesCode, UInt32.toNat_and, h, ← Nat.and_one_is_mod, Nat.and_assoc]
  exact Nat.and_zero _

theorem getTypesCode_lt (t : Ty) : Γ.getTypesCode t < 2 ^ 32 := UInt32.toNat_lt _

/-! ### Derived classes -/

/-- `get_struct_pack_id`, which an object of a derived class overrides. -/
def getStructPackId (t : Ty) : UInt32 := UInt32.ofNat (Γ.getTypesCode t)

/-- `search_type_by_md5<Base>` and `template_switch`: the place of the class with a code, and the
class. -/
def searchDerived (base : ℕ) (id : UInt32) : Option (ℕ × Ty) :=
  let (index, ok) := searchTypeByMd5 ((Γ.derivedClasses base).map Γ.getStructPackId) id
  if ok then (Γ.derivedClasses base)[index]?.map (index, ·) else none

/-- The code of an object of the `i`-th derived class, and the class that it is taken for. -/
def dispatch (base i : ℕ) : Option (UInt32 × Ty) :=
  (Γ.derivedClasses base)[i]?.bind fun t =>
    (Γ.searchDerived base (Γ.getStructPackId t)).map fun found => (Γ.getStructPackId t, found.2)

theorem getElem?_of_searchDerived {base i : ℕ} {id : UInt32} {t : Ty}
    (h : Γ.searchDerived base id = some (i, t)) : (Γ.derivedClasses base)[i]? = some t := by
  rw [searchDerived] at h
  dsimp only at h
  split at h
  · obtain ⟨u, hu, heq⟩ := Option.map_eq_some_iff.mp h
    cases heq
    exact hu
  · cases h

/-- An object whose class is found by its code. -/
theorem dispatch_of_searchDerived {base i : ℕ} {t : Ty}
    (h : Γ.searchDerived base (Γ.getStructPackId t) = some (i, t)) :
    Γ.dispatch base i = some (Γ.getStructPackId t, t) := by
  rw [dispatch, Γ.getElem?_of_searchDerived h, Option.bind_some, h]
  rfl

/-- Where no two classes have the same code, every object is such. -/
theorem searchDerived_of_nodup {base i : ℕ} {t : Ty}
    (h : ((Γ.derivedClasses base).map Γ.getStructPackId).Nodup)
    (hi : (Γ.derivedClasses base)[i]? = some t) :
    Γ.searchDerived base (Γ.getStructPackId t) = some (i, t) := by
  have hcode : ((Γ.derivedClasses base).map Γ.getStructPackId)[i]? =
      some (Γ.getStructPackId t) := by
    rw [List.getElem?_map, hi]
    rfl
  rw [searchDerived, searchTypeByMd5_of_getElem? h hcode]
  simp [hi]

/-! ### What the walks find -/

/-- The types written out in the members of the structs. -/
def structNodes : List Ty := Γ.structs.flatMap fun d => subtermsAll d.fields

/-- A list of types holds the components of its members, those behind a struct name aside. -/
private def Closed (l : List Ty) : Prop :=
  ∀ u ∈ l, ∀ v ∈ Γ.components u, v ∈ l ∨ v ∈ Γ.structNodes

section Closed

variable {Γ} {l l' : List Ty} {t : Ty}

private theorem Closed.cons (h : Γ.Closed l)
    (ht : ∀ v ∈ Γ.components t, v ∈ l ∨ v ∈ Γ.structNodes) :
    Γ.Closed (t :: l) := by
  intro u hu v hv
  rcases List.mem_cons.mp hu with rfl | hu
  · exact (ht v hv).imp_left (List.mem_cons_of_mem _)
  · exact (h u hu v hv).imp_left (List.mem_cons_of_mem _)

private theorem Closed.append (h : Γ.Closed l) (h' : Γ.Closed l') : Γ.Closed (l ++ l') := by
  intro u hu v hv
  rcases List.mem_append.mp hu with hu | hu
  · exact (h u hu v hv).imp_left (List.mem_append_left _)
  · exact (h' u hu v hv).imp_left (List.mem_append_right _)

private theorem Closed.nil : Γ.Closed [] := fun _ h => absurd h List.not_mem_nil

end Closed

theorem self_mem_subterms (t : Ty) : t ∈ subterms t := by
  cases t <;> simp [subterms]

theorem subset_subtermsAll {t : Ty} {ts : List Ty} (h : t ∈ ts) : subterms t ⊆ subtermsAll ts := by
  induction ts with
  | nil => simp at h
  | cons u ts ih =>
    rw [subtermsAll]
    rcases List.mem_cons.mp h with rfl | h
    · exact List.subset_append_left _ _
    · exact List.subset_append_of_subset_right _ (ih h)

theorem mem_subtermsAll {t : Ty} {ts : List Ty} (h : t ∈ ts) : t ∈ subtermsAll ts :=
  subset_subtermsAll h (self_mem_subterms t)

/-- The fields of a struct are among the nodes of the program. -/
theorem mem_structNodes {name : ℕ} {t : Ty} (h : t ∈ Γ.fields name) : t ∈ Γ.structNodes := by
  rw [fields] at h
  cases hd : Γ.structs[name]? with
  | none => simp [hd] at h
  | some d =>
    rw [hd] at h
    exact List.mem_flatMap.mpr ⟨d, List.mem_of_getElem? hd, mem_subtermsAll h⟩

mutual

private theorem closed_subterms : ∀ t : Ty, Γ.Closed (subterms t)
  | .fundamental _ | .enumeration _ _ | .varInt _ | .monostate =>
    Closed.nil.cons (by simp [components])
  | .polymorphic base =>
    (Closed.nil.cons (t := .struct base) fun _ hv => .inr (Γ.mem_structNodes hv)).cons
      (by simp [components])
  | .trivialView t | .container _ t | .set _ t | .array t _ | .optional t | .uniquePtr t
  | .compatible t _ => (closed_subterms t).cons (by simp [components, self_mem_subterms])
  | .map _ k m => ((closed_subterms k).append (closed_subterms m)).cons
      (by simp [components, self_mem_subterms])
  | .expected t e => ((closed_subterms t).append (closed_subterms e)).cons
      (by simp [components, self_mem_subterms])
  | .pair a b => ((closed_subterms a).append (closed_subterms b)).cons
      (by simp [components, self_mem_subterms])
  | .variant ts | .tuple ts => (closed_subtermsAll ts).cons fun _ hv => .inl (mem_subtermsAll hv)
  | .struct _ => Closed.nil.cons fun _ hv => .inr (Γ.mem_structNodes hv)

private theorem closed_subtermsAll : ∀ ts : List Ty, Γ.Closed (subtermsAll ts)
  | [] => Closed.nil
  | t :: ts => (closed_subterms t).append (closed_subtermsAll ts)

end

/-- The nodes of a type are closed under taking components. -/
theorem components_subset_nodes (t : Ty) : ∀ u ∈ Γ.nodes t, Γ.components u ⊆ Γ.nodes t := by
  intro u hu v hv
  rcases List.mem_append.mp hu with hu | hu
  · exact List.mem_append.mpr (Γ.closed_subterms t u hu v hv)
  · obtain ⟨d, hd, hu⟩ := List.mem_flatMap.mp hu
    refine List.mem_append_right _ ?_
    rcases Γ.closed_subtermsAll d.fields u hu v hv with h | h
    · exact List.mem_flatMap.mpr ⟨d, hd, h⟩
    · exact h

theorem self_mem_nodes (t : Ty) : t ∈ Γ.nodes t := List.mem_append_left _ (self_mem_subterms t)

/-- A walk that goes along some of the components meets exactly what it can reach. -/
theorem mem_visit_steps_iff {steps : Ty → List Ty} (h : ∀ u, steps u ⊆ Γ.components u)
    {t u : Ty} : u ∈ visit steps (Γ.searchFuel t) [] t ↔ Reaches steps t u :=
  mem_visit_iff (Γ.nodes t)
    (fun v hv => List.Subset.trans (h v) (Γ.components_subset_nodes t v hv))
    (Nat.lt_succ_self _) (Γ.self_mem_nodes t)

theorem containerSteps_subset (t : Ty) : Γ.containerSteps t ⊆ Γ.components t := by
  rw [containerSteps]
  split <;> simp

theorem compatibleSteps_subset (t : Ty) : Γ.compatibleSteps t ⊆ Γ.components t := by
  rw [compatibleSteps]
  split <;> simp

theorem checkIfHasContainer_iff {t : Ty} :
    Γ.checkIfHasContainer t = true ↔ ∃ u, Reaches Γ.containerSteps t u ∧ isContainer u = true := by
  simp only [checkIfHasContainer, List.any_eq_true, Γ.mem_visit_steps_iff Γ.containerSteps_subset]

theorem mem_visitCompatible_iff {t u : Ty} :
    u ∈ Γ.visitCompatible t ↔ Reaches Γ.compatibleSteps t u :=
  Γ.mem_visit_steps_iff Γ.compatibleSteps_subset

theorem versionOf?_eq_some_iff {x : Ty} {v : Version} :
    versionOf? x = some v ↔ ∃ w, x = .compatible w v := by
  cases x <;> simp [versionOf?]

theorem isCompatible_iff {x : Ty} : x.isCompatible = true ↔ ∃ w v, x = .compatible w v := by
  cases x <;> simp [Ty.isCompatible]

theorem existCompatibleMemberOf_iff {version : Version} {t : Ty} :
    Γ.existCompatibleMemberOf version t = true ↔
      ∃ u ∈ Γ.getTypes t, ∃ w, Reaches Γ.compatibleSteps u (.compatible w version) := by
  simp only [existCompatibleMemberOf, List.any_eq_true, mem_visitCompatible_iff,
    decide_eq_true_eq, versionOf?_eq_some_iff]
  grind

theorem existCompatibleMember_iff {t : Ty} :
    Γ.existCompatibleMember t = true ↔
      ∃ u ∈ Γ.getTypes t, ∃ w v, Reaches Γ.compatibleSteps u (.compatible w v) := by
  simp only [existCompatibleMember, List.any_eq_true, mem_visitCompatible_iff, isCompatible_iff]
  grind

/-- Asking the members of a class type is asking the type. -/
theorem exists_getTypes_reaches_iff {t w : Ty} {v : Version} :
    (∃ u ∈ Γ.getTypes t, Reaches Γ.compatibleSteps u (.compatible w v)) ↔
      Reaches Γ.compatibleSteps t (.compatible w v) := by
  have key : t.isCompatible = false → Γ.getTypes t = Γ.components t →
      ((∃ u ∈ Γ.getTypes t, Reaches Γ.compatibleSteps u (.compatible w v)) ↔
        Reaches Γ.compatibleSteps t (.compatible w v)) := by
    intro hc ht
    have hsteps : Γ.compatibleSteps t = Γ.getTypes t := by
      rw [compatibleSteps, if_neg (by simp [hc]), ht]
    constructor
    · rintro ⟨u, hu, h⟩
      exact .head (hsteps ▸ hu) h
    · intro h
      rcases Relation.ReflTransGen.cases_head h with rfl | ⟨u, hu, h⟩
      · simp [Ty.isCompatible] at hc
      · exact ⟨u, hsteps ▸ hu, h⟩
  cases t with
  | pair | tuple | struct => exact key rfl rfl
  | _ => simp [getTypes]

theorem existCompatibleMemberOf_iff_reaches {version : Version} {t : Ty} :
    Γ.existCompatibleMemberOf version t = true ↔
      ∃ w, Reaches Γ.compatibleSteps t (.compatible w version) := by
  rw [existCompatibleMemberOf_iff]
  constructor
  · rintro ⟨u, hu, w, h⟩
    exact ⟨w, Γ.exists_getTypes_reaches_iff.mp ⟨u, hu, h⟩⟩
  · rintro ⟨w, h⟩
    obtain ⟨u, hu, h⟩ := Γ.exists_getTypes_reaches_iff.mpr h
    exact ⟨u, hu, w, h⟩

theorem existCompatibleMember_iff_reaches {t : Ty} :
    Γ.existCompatibleMember t = true ↔
      ∃ w v, Reaches Γ.compatibleSteps t (.compatible w v) := by
  rw [existCompatibleMember_iff]
  constructor
  · rintro ⟨u, hu, w, v, h⟩
    exact ⟨w, v, Γ.exists_getTypes_reaches_iff.mp ⟨u, hu, h⟩⟩
  · rintro ⟨w, v, h⟩
    obtain ⟨u, hu, h⟩ := Γ.exists_getTypes_reaches_iff.mpr h
    exact ⟨u, hu, w, v, h⟩

theorem mem_compatibleVersionNumber {v : Version} {t : Ty} :
    v ∈ Γ.compatibleVersionNumber t ↔ ∃ w, Reaches Γ.compatibleSteps t (.compatible w v) := by
  simp only [compatibleVersionNumber, List.mem_dedup, List.mem_insertionSort, List.mem_filterMap,
    mem_visitCompatible_iff, versionOf?_eq_some_iff]
  grind

theorem nodup_compatibleVersionNumber (t : Ty) : (Γ.compatibleVersionNumber t).Nodup :=
  List.nodup_dedup _

end TypeEnv

end Yalantinglibs.StructPack
