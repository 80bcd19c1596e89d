import Yalantinglibs.StructPack.SizeExact
import Mathlib.Algebra.Order.BigOperators.Group.List
import Mathlib.Algebra.Order.Group.Nat

/-!
# When the size of a message is exact

`serialize_to` allocates what `get_serialize_runtime_info` computes and then writes without
a check. The two agree unless the first argument and the tuple of all arguments give
different answers about the metainfo byte, or a `compatible` member is inside another one, or
behind a pointer to a base class, where it is counted and never written. A metainfo byte that
is written and not counted may make up for such a member.

## Main definitions

* `TypeEnv.MetainfoAgrees`, `TypeEnv.NestedCompatible`, `TypeEnv.HiddenCompatible` — the
  conditions
* `TypeEnv.MetainfoMakesUp` — two defects that cancel
* `TypeEnv.lostSize` — what is counted of `compatible` members and not written

## Main results

* `serializeVersions_length` — the passes over the versions write each member once
* `packerWidthClass_info` — the writer reads its width class off the metainfo byte
* `len_getSerializeRuntimeInfo_eq_iff` — exactly when the size of a message is right
-/

set_option autoImplicit false

namespace Yalantinglibs.StructPack

open ByteCodec PathSearch

namespace TypeEnv

variable (Γ : TypeEnv)

/-- A container of the arguments has more elements than one byte can count. -/
def HasLongContainer (ts : List Ty) (xs : List Val) : Prop :=
  Γ.checkIfHasContainer (getArgsType ts) = true ∧
    2 ^ 8 ≤ (Γ.calculatePayloadSize SpConfig.DEFAULT ts xs).maxSize

/-- The header is decided alike for the first argument and for the tuple of all arguments,
or a long container forces the metainfo byte. -/
def MetainfoAgrees (conf : SpConfig) (ts : List Ty) (xs : List Val) : Prop :=
  Γ.checkHasMetainfo conf (firstArg ts) = Γ.checkHasMetainfo conf (getArgsType ts) ∨
    Γ.HasLongContainer ts xs

/-- An engaged `compatible` member holds another `compatible` member. -/
def NestedCompatible (ts : List Ty) (xs : List Val) : Prop :=
  ∃ c ∈ Γ.compatiblesMany false ts xs, ∃ v, c.val = .engaged v ∧ Γ.compatibles true c.type v ≠ []

/-- A `compatible` member is behind a pointer to a base class. -/
def HiddenCompatible (ts : List Ty) (xs : List Val) : Prop :=
  Γ.compatiblesMany true ts xs ≠ Γ.compatiblesMany false ts xs

/-- The metainfo byte is written for the first argument and not counted for the tuple of all
arguments; and there is one `compatible` member that is counted and not written, which takes one
byte too. -/
def MetainfoMakesUp (conf : SpConfig) (ts : List Ty) (xs : List Val) : Prop :=
  Γ.checkHasMetainfo conf (firstArg ts) = true ∧ Γ.checkHasMetainfo conf (getArgsType ts) = false ∧
    ¬ Γ.HasLongContainer ts xs ∧
      ∃ c, Γ.compatiblesMany true ts xs = [c] ∧ Γ.compatibleSize 1 c = 1

/-! ### The passes over the versions -/

section Versions

variable {Γ} {w : ℕ} {ts : List Ty} {xs : List Val}

private theorem sum_ite_eq {L : List Version} (hL : L.Nodup) {v : Version} (hv : v ∈ L) (n : ℕ) :
    (L.map fun u => if v = u then n else 0).sum = n := by
  induction L with
  | nil => simp at hv
  | cons u L ih =>
    rw [List.nodup_cons] at hL
    rw [List.map_cons, List.sum_cons]
    by_cases h : v = u
    · subst h
      have hzero : (L.map fun u => if v = u then n else 0).sum = 0 := by
        refine List.sum_eq_zero fun m hm => ?_
        obtain ⟨u, hu, rfl⟩ := List.mem_map.mp hm
        rw [if_neg]
        rintro rfl
        exact hL.1 hu
      rw [if_pos rfl, hzero, Nat.add_zero]
    · rw [if_neg h, Nat.zero_add, ih hL.2 ((List.mem_cons.mp hv).resolve_left h)]

/-- Adding up version by version is adding up all. -/
private theorem sum_filter_version {L : List Version} (hL : L.Nodup) (f : CompatibleMember → ℕ)
    {cs : List CompatibleMember} (hcs : ∀ c ∈ cs, c.version ∈ L) :
    (L.map fun v => ((cs.filter (·.version = v)).map f).sum).sum = (cs.map f).sum := by
  induction cs with
  | nil => simp
  | cons c cs ih =>
    have ih := ih fun d hd => hcs d (List.mem_cons_of_mem _ hd)
    have hsplit : ∀ v : Version, (((c :: cs).filter (·.version = v)).map f).sum =
        (if c.version = v then f c else 0) + ((cs.filter (·.version = v)).map f).sum := by
      intro v
      by_cases h : c.version = v <;> simp [h]
    simp only [hsplit]
    rw [List.sum_map_add, sum_ite_eq hL (hcs c List.mem_cons_self), ih, List.map_cons,
      List.sum_cons]

/-- The passes over the versions write every member that is not inside another once. -/
theorem serializeVersions_length (h : Γ.HasTypes ts xs) :
    (Γ.serializeVersions w ts xs).length =
      ((Γ.compatiblesMany false ts xs).map fun c => (Γ.compatibleBytes w c).length).sum := by
  rw [serializeVersions]
  split <;> rename_i hex
  · have hver : ∀ c ∈ Γ.compatiblesMany false ts xs,
        c.version ∈ Γ.compatibleVersionNumber (getArgsType ts) := fun c hc =>
      Γ.mem_compatibleVersionNumber.mpr ⟨c.type, reaches_of_mem_compatiblesMany h hc⟩
    simp only [List.length_flatMap, serializeVersionMany_eq h]
    exact sum_filter_version (Γ.nodup_compatibleVersionNumber _) _ hver
  · rw [compatiblesMany_eq_nil h (by simpa using hex)]
    rfl

theorem compatibleSize_pos {c : CompatibleMember}
    (h : Γ.HasTy (.compatible c.type c.version) c.val) :
    0 < Γ.compatibleSize w c := by
  obtain ⟨t, version, v⟩ := c
  cases h with
  | empty => simp [compatibleSize, calculateOneSize]
  | compatible _ _ v hv =>
    simp only [compatibleSize, calculateOneSize, SizeInfo.bytes_add, SizeInfo.bytes_ofTotal]
    omega
  | image _ b hagg => simp [isAggregate] at hagg

theorem compatibleSizes_cons (c : CompatibleMember) (cs : List CompatibleMember) :
    Γ.compatibleSizes w (c :: cs) = Γ.compatibleSize w c + Γ.compatibleSizes w cs := by
  rw [compatibleSizes, List.map_cons, List.sum_cons]
  rfl

theorem compatibleSizes_eq_zero_iff {cs : List CompatibleMember}
    (h : ∀ c ∈ cs, Γ.HasTy (.compatible c.type c.version) c.val) :
    Γ.compatibleSizes w cs = 0 ↔ cs = [] := by
  cases cs with
  | nil => simp
  | cons c cs =>
    have hpos : 0 < Γ.compatibleSize w c := compatibleSize_pos (h c List.mem_cons_self)
    rw [compatibleSizes_cons]
    simp only [reduceCtorEq, iff_false]
    omega

/-- Every member counts. -/
theorem compatibleSizes_sublist {cs ds : List CompatibleMember} (hsub : cs.Sublist ds)
    (h : ∀ d ∈ ds, Γ.HasTy (.compatible d.type d.version) d.val) :
    Γ.compatibleSizes w cs ≤ Γ.compatibleSizes w ds ∧
      (Γ.compatibleSizes w ds = Γ.compatibleSizes w cs ↔ ds = cs) := by
  induction hsub with
  | slnil => simp
  | @cons cs ds d hsub ih =>
    obtain ⟨hle, -⟩ := ih fun e he => h e (List.mem_cons_of_mem d he)
    have hpos : 0 < Γ.compatibleSize w d := compatibleSize_pos (h d List.mem_cons_self)
    rw [compatibleSizes_cons]
    refine ⟨by omega, iff_of_false (by omega) ?_⟩
    rintro rfl
    exact absurd hsub.length_le (by simp)
  | cons_cons d hsub ih =>
    obtain ⟨hle, hiff⟩ := ih fun e he => h e (List.mem_cons_of_mem d he)
    rw [compatibleSizes_cons, compatibleSizes_cons, List.cons_inj_right, ← hiff]
    omega

/-- A member is counted as it is written, but for the members inside it. -/
theorem compatibleSize_eq_iff {c : CompatibleMember}
    (h : Γ.HasTy (.compatible c.type c.version) c.val) :
    (Γ.compatibleBytes w c).length ≤ Γ.compatibleSize w c ∧
      (Γ.compatibleSize w c = (Γ.compatibleBytes w c).length ↔
        ∀ v, c.val = .engaged v → Γ.compatibles true c.type v = []) := by
  obtain ⟨t, version, v⟩ := c
  cases h with
  | empty => simp [compatibleSize, calculateOneSize, compatibleBytes]
  | compatible _ _ v hv =>
    have hty : ∀ d ∈ Γ.compatibles true t v, Γ.HasTy (.compatible d.type d.version) d.val :=
      fun d hd => (of_mem_compatibles hv hd).2
    have hnone := compatibleSizes_eq_zero_iff (w := w) hty
    simp only [compatibleSize, calculateOneSize, compatibleBytes, SizeInfo.bytes_add,
      SizeInfo.bytes_ofTotal, List.length_cons, calculateOneSize_bytes hv SpConfig.DEFAULT,
      Val.engaged.injEq, forall_eq', ← hnone]
    omega
  | image _ b hagg => simp [isAggregate] at hagg

theorem compatibleSizes_eq_iff {cs : List CompatibleMember}
    (h : ∀ c ∈ cs, Γ.HasTy (.compatible c.type c.version) c.val) :
    (cs.map fun c => (Γ.compatibleBytes w c).length).sum ≤ Γ.compatibleSizes w cs ∧
      (Γ.compatibleSizes w cs = (cs.map fun c => (Γ.compatibleBytes w c).length).sum ↔
        ∀ c ∈ cs, ∀ v, c.val = .engaged v → Γ.compatibles true c.type v = []) := by
  induction cs with
  | nil => simp
  | cons c cs ih =>
    obtain ⟨hle, hiff⟩ := ih fun d hd => h d (List.mem_cons_of_mem c hd)
    obtain ⟨hle', hiff'⟩ := compatibleSize_eq_iff (w := w) (h c List.mem_cons_self)
    rw [compatibleSizes_cons, List.map_cons, List.sum_cons, List.forall_mem_cons, ← hiff, ← hiff']
    omega

/-- What is counted of `compatible` members and not written. -/
def lostSize (Γ : TypeEnv) (w : ℕ) (ts : List Ty) (xs : List Val) : ℕ :=
  Γ.compatibleSizes w (Γ.compatiblesMany true ts xs) - (Γ.serializeVersions w ts xs).length

theorem compatibleSizes_eq_add_lostSize (h : Γ.HasTypes ts xs) :
    Γ.compatibleSizes w (Γ.compatiblesMany true ts xs) =
        (Γ.serializeVersions w ts xs).length + Γ.lostSize w ts xs ∧
      (Γ.lostSize w ts xs = 0 ↔ ¬ Γ.NestedCompatible ts xs ∧ ¬ Γ.HiddenCompatible ts xs) := by
  obtain ⟨hle, hiff⟩ := compatibleSizes_sublist (w := w) (compatiblesMany_sublist h) fun c hc =>
    (of_mem_compatiblesMany h hc).2
  have hty : ∀ c ∈ Γ.compatiblesMany false ts xs, Γ.HasTy (.compatible c.type c.version) c.val :=
    fun c hc => (of_mem_compatiblesMany h hc).2
  obtain ⟨hle', hiff'⟩ := compatibleSizes_eq_iff (w := w) hty
  have hnested : ¬ Γ.NestedCompatible ts xs ↔ ∀ c ∈ Γ.compatiblesMany false ts xs, ∀ v,
      c.val = .engaged v → Γ.compatibles true c.type v = [] := by
    simp only [NestedCompatible, not_exists, not_and, not_not]
  rw [hnested, ← hiff', HiddenCompatible, not_not, ← hiff, lostSize, serializeVersions_length h]
  omega

/-- Payload and versions together fall short of the computed size by what is lost. -/
theorem calculatePayloadSize_bytes_eq (h : Γ.HasTypes ts xs) :
    (Γ.calculatePayloadSize SpConfig.DEFAULT ts xs).bytes w =
      (Γ.serializeMany w SpConfig.DEFAULT ts xs).length + (Γ.serializeVersions w ts xs).length +
        Γ.lostSize w ts xs := by
  rw [calculatePayloadSize_bytes _ fun p hp => calculateOneSize_bytes (h.2 p hp), Nat.add_assoc,
    (compatibleSizes_eq_add_lostSize h).1]

/-- Where no version is passed over, what is counted of `compatible` members is lost. They are
behind a pointer to a base class. -/
theorem lostSize_of_existCompatibleMember (h : Γ.HasTypes ts xs)
    (hex : Γ.existCompatibleMember (getArgsType ts) = false) :
    (Γ.lostSize 1 ts xs = 1 ↔
        ∃ c, Γ.compatiblesMany true ts xs = [c] ∧ Γ.compatibleSize 1 c = 1) ∧
      (Γ.lostSize w ts xs ≠ 0 → Γ.checkIfHasContainer (getArgsType ts) = true) := by
  have hty : ∀ c ∈ Γ.compatiblesMany true ts xs, Γ.HasTy (.compatible c.type c.version) c.val :=
    fun c hc => (of_mem_compatiblesMany h hc).2
  have hlost : ∀ w, Γ.lostSize w ts xs = Γ.compatibleSizes w (Γ.compatiblesMany true ts xs) := by
    intro w
    rw [lostSize, serializeVersions, hex]
    rfl
  rw [hlost, hlost]
  constructor
  · generalize Γ.compatiblesMany true ts xs = cs at hty
    match cs with
    | [] => simp
    | [c] => simp [compatibleSizes]
    | c :: d :: cs =>
      -- each of two members has a byte at least
      have hc : 0 < Γ.compatibleSize 1 c := compatibleSize_pos (hty c (by simp))
      have hd : 0 < Γ.compatibleSize 1 d := compatibleSize_pos (hty d (by simp))
      rw [compatibleSizes_cons, compatibleSizes_cons]
      refine iff_of_false (by omega) ?_
      rintro ⟨e, he, -⟩
      cases he
  · intro hne
    obtain ⟨c, hc⟩ := List.exists_mem_of_ne_nil _ (mt (compatibleSizes_eq_zero_iff hty).mpr hne)
    apply (of_mem_compatiblesMany h hc).1.elim _ And.right
    -- one that the types alone lead to would have been seen
    intro hreach
    have hcompatible := Γ.existCompatibleMember_iff_reaches.mpr ⟨_, _, hreach⟩
    rw [hex] at hcompatible
    cases hcompatible

end Versions

/-! ### The header -/

section Header

variable {Γ} {conf : SpConfig} {ts : List Ty} {xs : List Val}

theorem widthClass_le (n : ℕ) : widthClass n ≤ 3 := by
  rw [widthClass]
  split_ifs <;> omega

theorem messageWidthClass_le (Γ : TypeEnv) (ts : List Ty) (xs : List Val) :
    Γ.messageWidthClass ts xs ≤ 3 := by
  rw [messageWidthClass]
  split
  · exact widthClass_le _
  · exact Nat.zero_le _

theorem messageWidthClass_ne_zero_iff :
    Γ.messageWidthClass ts xs ≠ 0 ↔ Γ.HasLongContainer ts xs := by
  rw [messageWidthClass, HasLongContainer]
  by_cases hc : Γ.checkIfHasContainer (getArgsType ts) = true
  · rw [if_pos hc, widthClass]
    split_ifs <;> simp [hc] <;> omega
  · simp [hc]

theorem lengthClass_cases (len : ℕ) :
    lengthClass len = 1 ∨ lengthClass len = 2 ∨ lengthClass len = 3 := by
  rw [lengthClass]
  split_ifs <;> simp

/-- The three parts of a metainfo byte. -/
theorem metainfo_bits : ∀ cls ≤ 3, ∀ lit ∈ [0, 0b100], ∀ len ≤ 3,
    (cls <<< 3 ||| lit ||| len) &&& 0b11000 = cls <<< 3 ∧
    (cls <<< 3 ||| lit ||| len) &&& 0b100 = lit ∧
    (cls <<< 3 ||| lit ||| len) &&& 0b11 = len ∧ (cls <<< 3 ||| lit ||| len) < 256 := by
  decide

/-- Without containers the payload is the total. -/
theorem lenBeforeHash_eq (conf : SpConfig) (h : Γ.HasTypes ts xs) :
    Γ.lenBeforeHash conf ts xs =
      (if Γ.checkHasMetainfo conf (getArgsType ts) || Γ.messageWidthClass ts xs ≠ 0 then 1 else 0) +
      (Γ.calculatePayloadSize SpConfig.DEFAULT ts xs).bytes (2 ^ Γ.messageWidthClass ts xs) := by
  rw [lenBeforeHash]
  congr 1
  split <;> rename_i hc
  · rfl
  · have hno : Γ.NoContainer (getArgsType ts) := noContainer_iff.mpr (by simpa using hc)
    have hcnt : (Γ.calculatePayloadSize SpConfig.DEFAULT ts xs).sizeCnt = 0 := by
      refine calculatePayloadSize_sizeCnt fun p hp tag => ?_
      refine calculateOneSize_sizeCnt (h.2 p hp) ?_ tag
      rcases mem_components_args Γ (List.of_mem_zip hp).1 with heq | hmem
      · rwa [heq]
      · exact hno.component hmem
    rw [SizeInfo.bytes, hcnt, Nat.zero_mul, Nat.add_zero]

/-- The length before the length field is chosen. -/
def lenBeforeLength (Γ : TypeEnv) (conf : SpConfig) (ts : List Ty) (xs : List Val) : ℕ :=
  Γ.lenBeforeHash conf ts xs + 4 +
    if Γ.checkIfAddTypeLiteral conf (getArgsType ts) then
      (Γ.getTypeLiteral (getArgsType ts)).length + 1
    else 0

/-- The bytes of the length field, as the computed size counts them. -/
def lengthFieldSize (Γ : TypeEnv) (conf : SpConfig) (ts : List Ty) (xs : List Val) : ℕ :=
  if Γ.existCompatibleMember (getArgsType ts) then
    2 ^ lengthClass (Γ.lenBeforeLength conf ts xs)
  else 0

theorem getSerializeRuntimeInfo_of_disabled
    (h : Γ.checkIfDisableHashHead conf (getArgsType ts) = true) :
    Γ.getSerializeRuntimeInfo conf ts xs =
      ⟨Γ.lenBeforeHash conf ts xs, Γ.messageWidthClass ts xs <<< 3⟩ := by
  rw [getSerializeRuntimeInfo]
  simp [h]

theorem getSerializeRuntimeInfo_of_enabled
    (h : Γ.checkIfDisableHashHead conf (getArgsType ts) = false) :
    Γ.getSerializeRuntimeInfo conf ts xs =
      ⟨Γ.lenBeforeLength conf ts xs + Γ.lengthFieldSize conf ts xs,
        Γ.messageWidthClass ts xs <<< 3 |||
          (if Γ.checkIfAddTypeLiteral conf (getArgsType ts) then 0b100 else 0) |||
          if Γ.existCompatibleMember (getArgsType ts) then
            lengthClass (Γ.lenBeforeLength conf ts xs)
          else 0⟩ := by
  rw [getSerializeRuntimeInfo, lengthFieldSize, lenBeforeLength]
  simp only [h, Bool.false_eq_true, if_false]
  split_ifs <;> simp [Nat.add_assoc]

/-- The metainfo byte is put together from the width class, the literal bit and the class of
the length field. -/
theorem exists_metainfo (Γ : TypeEnv) (conf : SpConfig) (ts : List Ty) (xs : List Val) :
    ∃ lit ∈ [0, 0b100], ∃ len ≤ 3, (Γ.getSerializeRuntimeInfo conf ts xs).metainfo =
      Γ.messageWidthClass ts xs <<< 3 ||| lit ||| len := by
  cases hd : Γ.checkIfDisableHashHead conf (getArgsType ts) with
  | true =>
    rw [getSerializeRuntimeInfo_of_disabled hd]
    exact ⟨0, by simp, 0, by simp, by simp⟩
  | false =>
    rw [getSerializeRuntimeInfo_of_enabled hd]
    refine ⟨_, ?_, _, ?_, rfl⟩
    · split <;> simp
    · split
      · rcases lengthClass_cases (Γ.lenBeforeLength conf ts xs) with h | h | h <;> simp [h]
      · exact Nat.zero_le _

/-- The writer reads the width class of the message off the metainfo byte. -/
theorem packerWidthClass_info :
    Γ.packerWidthClass ts (Γ.getSerializeRuntimeInfo conf ts xs) = Γ.messageWidthClass ts xs := by
  rw [packerWidthClass]
  split <;> rename_i hc
  · obtain ⟨lit, hlit, len, hlen, heq⟩ := exists_metainfo Γ conf ts xs
    rw [heq, (metainfo_bits _ (Γ.messageWidthClass_le ts xs) lit hlit len hlen).1,
      Nat.shiftLeft_shiftRight]
  · rw [messageWidthClass, if_neg hc]

private theorem or_mod_two (n m : ℕ) : (n ||| m) % 2 = 1 ↔ n % 2 = 1 ∨ m % 2 = 1 := by
  have h : (n ||| m) % 2 ^ 1 = n % 2 ^ 1 ||| m % 2 ^ 1 := Nat.or_mod_two_pow
  rw [pow_one] at h
  rw [h]
  rcases Nat.mod_two_eq_zero_or_one n with hn | hn <;>
    rcases Nat.mod_two_eq_zero_or_one m with hm | hm <;> simp [hn, hm]

/-- The metainfo byte is written for the first argument, or for a wide container. -/
theorem writesMetainfo_eq (isDefaultSizeType : Bool) :
    Γ.writesMetainfo conf isDefaultSizeType ts =
      (Γ.checkHasMetainfo conf (firstArg ts) || !isDefaultSizeType) := by
  have heven := Γ.getTypesCode_even (getArgsType ts)
  rw [writesMetainfo, Bool.eq_iff_iff, decide_eq_true_eq, or_mod_two, calculateHashHead,
    Bool.or_eq_true]
  cases Γ.checkHasMetainfo conf (firstArg ts) <;> cases isDefaultSizeType <;>
    simp <;> omega

theorem lengthClass_le (len : ℕ) : lengthClass len ≤ 3 := by
  rcases lengthClass_cases len with h | h | h <;> omega

/-- The metainfo byte and the length field say the same about the width of the field. -/
theorem serializeLength_eq (hd : Γ.checkIfDisableHashHead conf (getArgsType ts) = false)
    (hc : Γ.existCompatibleMember (getArgsType ts) = true) :
    serializeLength (Γ.getSerializeRuntimeInfo conf ts xs) =
      toLE (2 ^ lengthClass (Γ.lenBeforeLength conf ts xs))
        (Γ.getSerializeRuntimeInfo conf ts xs).len := by
  rw [getSerializeRuntimeInfo_of_enabled hd, serializeLength]
  have hlit : (if Γ.checkIfAddTypeLiteral conf (getArgsType ts) = true then 0b100 else 0) ∈
      [0, 0b100] := by
    split <;> simp
  simp only [hc, if_true, (metainfo_bits _ (Γ.messageWidthClass_le ts xs) _ hlit _
    (lengthClass_le (Γ.lenBeforeLength conf ts xs))).2.2.1]
  rcases lengthClass_cases (Γ.lenBeforeLength conf ts xs) with h | h | h <;>
    simp only [h, Nat.reducePow]

/-- The bytes of the header. -/
theorem serializeMetainfo_length (hallowed : Γ.DisableHashHeadAllowed conf (getArgsType ts))
    (isDefaultSizeType : Bool) :
    (Γ.serializeMetainfo conf isDefaultSizeType ts (Γ.getSerializeRuntimeInfo conf ts xs)).length =
      (if Γ.checkIfDisableHashHead conf (getArgsType ts) then 0 else 4) +
      if Γ.checkHasMetainfo conf (firstArg ts) || !isDefaultSizeType then
        1 + Γ.lengthFieldSize conf ts xs +
          if Γ.checkIfAddTypeLiteral conf (getArgsType ts) then
            (Γ.getTypeLiteral (getArgsType ts)).length + 1
          else 0
      else 0 := by
  have hlength : (if Γ.existCompatibleMember (getArgsType ts) then
      serializeLength (Γ.getSerializeRuntimeInfo conf ts xs) else []).length =
      Γ.lengthFieldSize conf ts xs := by
    rw [lengthFieldSize]
    split <;> rename_i hc
    · have hd : Γ.checkIfDisableHashHead conf (getArgsType ts) = false := by
        by_contra h
        rw [hallowed (by simpa using h)] at hc
        cases hc
      rw [serializeLength_eq hd hc, toLE_length]
    · rfl
  rw [serializeMetainfo, List.length_append, writesMetainfo_eq]
  congr 1
  · split <;> simp
  · split
    · rw [List.length_cons, List.length_append, hlength]
      split <;> simp <;> omega
    · rfl

theorem serializeTo_length (conf : SpConfig) (h : Γ.HasTypes ts xs) :
    (Γ.serializeTo conf ts xs (Γ.getSerializeRuntimeInfo conf ts xs)).length +
        Γ.lostSize (2 ^ Γ.messageWidthClass ts xs) ts xs =
      (Γ.serializeMetainfo conf (Γ.messageWidthClass ts xs = 0) ts
        (Γ.getSerializeRuntimeInfo conf ts xs)).length +
      (Γ.calculatePayloadSize SpConfig.DEFAULT ts xs).bytes (2 ^ Γ.messageWidthClass ts xs) := by
  rw [serializeTo, packerWidthClass_info, calculatePayloadSize_bytes_eq h]
  simp only [List.length_append]
  omega

/-- The literal bit and the missing hash exclude each other. -/
theorem checkIfAddTypeLiteral_of_disabled {t : Ty} (h : Γ.checkIfDisableHashHead conf t = true) :
    Γ.checkIfAddTypeLiteral conf t = false := by
  rw [checkIfDisableHashHead] at h
  rw [checkIfAddTypeLiteral]
  split <;> rename_i hconf
  · rw [if_pos hconf, decide_eq_true_eq] at h
    simp [h, SpConfig.DISABLE_ALL_META_INFO, SpConfig.DEFAULT, SpConfig.ENABLE_TYPE_INFO]
  · rw [if_neg hconf, decide_eq_true_eq] at h
    simp [h, SpConfig.DISABLE_ALL_META_INFO, SpConfig.ENABLE_TYPE_INFO]

/-- The computed size of a message is the number of bytes written exactly when the header is
decided alike for the first argument and for all arguments, and no `compatible` member is
inside another or behind a pointer to a base class, or the two defects cancel. -/
theorem len_getSerializeRuntimeInfo_eq_iff (h : Γ.HasTypes ts xs)
    (hallowed : Γ.DisableHashHeadAllowed conf (getArgsType ts)) :
    (Γ.getSerializeRuntimeInfo conf ts xs).len =
        (Γ.serializeTo conf ts xs (Γ.getSerializeRuntimeInfo conf ts xs)).length ↔
      Γ.MetainfoAgrees conf ts xs ∧ ¬ Γ.NestedCompatible ts xs ∧ ¬ Γ.HiddenCompatible ts xs ∨
        Γ.MetainfoMakesUp conf ts xs := by
  have htotal := serializeTo_length conf h
  rw [serializeMetainfo_length hallowed] at htotal
  rw [← (compatibleSizes_eq_add_lostSize (w := 2 ^ Γ.messageWidthClass ts xs) h).2, MetainfoAgrees,
    MetainfoMakesUp, ← messageWidthClass_ne_zero_iff, not_not]
  have hbefore := lenBeforeHash_eq conf h
  have hlost := fun hex => lostSize_of_existCompatibleMember (w := 2 ^ Γ.messageWidthClass ts xs) h hex
  have hone : Γ.messageWidthClass ts xs = 0 → Γ.lostSize (2 ^ Γ.messageWidthClass ts xs) ts xs =
      Γ.lostSize 1 ts xs := by
    intro hcls
    rw [hcls, pow_zero]
  cases hd : Γ.checkIfDisableHashHead conf (getArgsType ts) with
  | true =>
    -- nothing is found and no literal is written: only the metainfo byte is in question, which is
    -- counted where a member is lost
    have hc := hallowed hd
    have hlit := checkIfAddTypeLiteral_of_disabled hd
    have hfield : Γ.lengthFieldSize conf ts xs = 0 := by rw [lengthFieldSize, hc]; rfl
    have hcontainer : Γ.lostSize (2 ^ Γ.messageWidthClass ts xs) ts xs ≠ 0 →
        Γ.checkHasMetainfo conf (getArgsType ts) = true := by
      intro hne
      rw [checkHasMetainfo, hd, (hlost hc).2 hne]
      simp
    rw [← (hlost hc).1]
    rw [getSerializeRuntimeInfo_of_disabled hd] at htotal ⊢
    rw [hfield, hd, hlit] at htotal
    generalize Γ.lostSize (2 ^ Γ.messageWidthClass ts xs) ts xs = lost at *
    generalize Γ.lostSize 1 ts xs = lost' at *
    cases hMf : Γ.checkHasMetainfo conf (firstArg ts) <;>
      cases hM : Γ.checkHasMetainfo conf (getArgsType ts) <;>
      by_cases hcls : Γ.messageWidthClass ts xs = 0 <;>
      simp [hMf, hM, hcls] at htotal hbefore hcontainer hone ⊢ <;> omega
  | false =>
    have hM : Γ.checkHasMetainfo conf (getArgsType ts) =
        (Γ.existCompatibleMember (getArgsType ts) ||
          Γ.checkIfAddTypeLiteral conf (getArgsType ts)) := by
      simp [checkHasMetainfo, hd]
    rw [getSerializeRuntimeInfo_of_enabled hd] at htotal ⊢
    rw [hd] at htotal
    rw [hM] at hbefore ⊢
    have hfield : Γ.existCompatibleMember (getArgsType ts) = false →
        Γ.lengthFieldSize conf ts xs = 0 := by
      intro hc
      rw [lengthFieldSize, hc]
      rfl
    have hup := fun hex => (hlost hex).1
    simp only [lenBeforeLength] at htotal ⊢
    generalize Γ.lostSize (2 ^ Γ.messageWidthClass ts xs) ts xs = lost at *
    generalize Γ.lostSize 1 ts xs = lost' at *
    generalize (∃ c, Γ.compatiblesMany true ts xs = [c] ∧ Γ.compatibleSize 1 c = 1) = up at *
    cases hMf : Γ.checkHasMetainfo conf (firstArg ts) <;>
      cases hc : Γ.existCompatibleMember (getArgsType ts) <;>
      cases hlit : Γ.checkIfAddTypeLiteral conf (getArgsType ts) <;>
      by_cases hcls : Γ.messageWidthClass ts xs = 0 <;> by_cases hmakes : up <;>
      simp [hMf, hc, hlit, hcls, hmakes] at htotal hbefore hfield hup hone ⊢ <;> omega

end Header

/-- The types of the arguments of a call with an `int` and a `string`. -/
def intAndString : List Ty := [.fundamental .int32, .container .string (.fundamental .char8)]

/-- The arguments `1` and `""`. -/
def oneAndEmpty : List Val := [.bytes [1, 0, 0, 0], .list []]

theorem hasTypes_oneAndEmpty : plain.HasTypes intAndString oneAndEmpty := by
  refine ⟨rfl, ?_⟩
  simp only [intAndString, oneAndEmpty, List.zip_cons_cons, List.zip_nil_right,
    List.forall_mem_cons, List.not_mem_nil, false_imp_iff, implies_true, and_true]
  exact ⟨.fundamental _ _ rfl, .container _ _ _ (by decide) (by simp)⟩

/-- Without any metainfo, the metainfo byte of these arguments is counted, since one of them is
a container, but not written, since the first is none. -/
theorem len_ne_length_serializeTo :
    plain.HasTypes intAndString oneAndEmpty ∧
    plain.DisableHashHeadAllowed SpConfig.DISABLE_ALL_META_INFO (getArgsType intAndString) ∧
    let info := plain.getSerializeRuntimeInfo SpConfig.DISABLE_ALL_META_INFO intAndString
      oneAndEmpty
    info.len ≠ (plain.serializeTo SpConfig.DISABLE_ALL_META_INFO intAndString oneAndEmpty
      info).length :=
  ⟨hasTypes_oneAndEmpty, fun _ => by decide, by decide +kernel⟩

/-- `std::string`. -/
abbrev string : Ty := .container .string (.fundamental .char8)

/-- A struct of an `int32_t`, a `compatible<std::string, 1>` and a `compatible<int32_t, 2>`, and a
base class of an `int32_t` with one derived class, which adds a `std::string`. -/
def accountAndShape : TypeEnv where
  structs :=
    [{ fields := [.fundamental .int32, .compatible string ⟨1, by decide⟩,
        .compatible (.fundamental .int32) ⟨2, by decide⟩]
       init := .list [.bytes [0, 0, 0, 0], .null, .null] },
     { fields := [.fundamental .int32], init := .bytes [0, 0, 0, 0], derived := [2] },
     { fields := [.fundamental .int32, string], init := .list [.bytes [0, 0, 0, 0], .list []] }]
  keyLess _ _ _ := false
  keyEqual _ _ _ := true
  pairPadding _ _ := 0

/-- The types of the arguments of a call with the struct, a `string` and a pointer to a base
class. -/
def threeTypes : List Ty := [.struct 0, string, .polymorphic 1]

/-- The struct `{5, "a", nullopt}`, the `string` `"hi"` and an object `{1, ""}`. -/
def threeArguments : List Val :=
  [.list [.bytes [5, 0, 0, 0], .engaged (.list [.bytes [97]]), .null],
    .list [.bytes [104], .bytes [105]], .alt 0 (.list [.bytes [1, 0, 0, 0], .list []])]

theorem hasTy_string (s : Bytes) (hlen : s.length < 2 ^ 64) (Γ : TypeEnv) :
    Γ.HasTy string (.list (s.map fun c => .bytes [c])) := by
  apply HasTy.container
  · rwa [List.length_map]
  · intro x hx
    obtain ⟨c, -, rfl⟩ := List.mem_map.mp hx
    exact .fundamental .char8 [c] rfl

theorem searchDerived_shape : accountAndShape.searchDerived 1
    (accountAndShape.getStructPackId (.struct 2)) = some (0, .struct 2) :=
  accountAndShape.searchDerived_of_nodup (List.nodup_singleton _) rfl

theorem hasTypes_threeArguments : accountAndShape.HasTypes threeTypes threeArguments := by
  have hint : ∀ b : Bytes, b.length = 4 → accountAndShape.HasTy (.fundamental .int32) (.bytes b) :=
    .fundamental .int32
  have haccount : accountAndShape.HasTy (.struct 0)
      (.list [.bytes [5, 0, 0, 0], .engaged (.list [.bytes [97]]), .null]) := by
    apply HasTy.struct 0 _ (by decide +kernel) rfl
    simp only [accountAndShape, fields, List.getElem?_cons_zero, Option.map_some, Option.getD_some,
      List.zip_cons_cons, List.zip_nil_right, List.forall_mem_cons, List.not_mem_nil, false_imp_iff,
      implies_true, and_true]
    exact ⟨hint _ rfl, .compatible _ _ _ (hasTy_string [97] (by decide) _), .empty _ _⟩
  have hshape : accountAndShape.HasTy (.struct 2) (.list [.bytes [1, 0, 0, 0], .list []]) := by
    apply HasTy.struct 2 _ (by decide +kernel) rfl
    simp only [accountAndShape, fields, List.getElem?_cons_succ, List.getElem?_cons_zero,
      Option.map_some, Option.getD_some, List.zip_cons_cons, List.zip_nil_right,
      List.forall_mem_cons, List.not_mem_nil, false_imp_iff, implies_true, and_true]
    exact ⟨hint _ rfl, hasTy_string [] (by decide) _⟩
  refine ⟨rfl, ?_⟩
  simp only [threeTypes, threeArguments, List.zip_cons_cons, List.zip_nil_right,
    List.forall_mem_cons, List.not_mem_nil, false_imp_iff, implies_true, and_true]
  exact ⟨haccount, hasTy_string [104, 105] (by decide) _,
    .derived 1 0 _ _ searchDerived_shape hshape⟩

/-- No member of these arguments is inside another, or behind the pointer. -/
theorem compatiblesMany_threeArguments (behind : Bool) :
    accountAndShape.compatiblesMany behind threeTypes threeArguments =
      [⟨string, ⟨1, by decide⟩, .engaged (.list [.bytes [97]])⟩,
        ⟨.fundamental .int32, ⟨2, by decide⟩, .null⟩] := by
  have hshape : accountAndShape.compatibles true (.polymorphic 1)
      (.alt 0 (.list [.bytes [1, 0, 0, 0], .list []])) = [] := by
    simp only [compatibles, if_true, accountAndShape.dispatch_of_searchDerived searchDerived_shape]
    rfl
  cases behind with
  | false => rfl
  | true =>
    simp only [threeTypes, threeArguments, compatiblesMany, hshape]
    rfl

/-- The arguments are counted as they are written. -/
theorem len_eq_length_serializeTo_threeArguments :
    let info := accountAndShape.getSerializeRuntimeInfo SpConfig.DEFAULT threeTypes threeArguments
    info.len =
      (accountAndShape.serializeTo SpConfig.DEFAULT threeTypes threeArguments info).length := by
  refine (len_getSerializeRuntimeInfo_eq_iff hasTypes_threeArguments fun h =>
    absurd h (by decide)).mpr
    (.inl ⟨.inl (by decide +kernel), ?_, ?_⟩)
  · rintro ⟨c, hc, v, hv, hne⟩
    rw [compatiblesMany_threeArguments, List.mem_pair] at hc
    obtain rfl | rfl := hc
    · cases hv
      exact hne rfl
    · cases hv
  · rw [HiddenCompatible, compatiblesMany_threeArguments, compatiblesMany_threeArguments, not_not]

end TypeEnv

end Yalantinglibs.StructPack
