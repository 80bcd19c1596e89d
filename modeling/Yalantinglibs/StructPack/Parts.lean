import Yalantinglibs.StructPack.Packer
import Yalantinglibs.StructPack.Unpacker

/-!
# The parts of a value

Conditions on a value speak about the values inside it: about every container, every map. This
file says what is inside a value, and states the condition under which the reader takes apart
what the writer put together.

## Main definitions

* `TypeEnv.parts`, `TypeEnv.Everywhere` — the values directly inside a value, and a condition
  on it and on all values inside
* `TypeEnv.FitsWidth` — the lengths of the containers fit the width of the length fields
* `TypeEnv.PairSplits` — an entry of a map is written as a key followed by a mapped value
* `TypeEnv.ReadAsWritten` — so are all entries of all maps inside a value

## Main results

* `serializeOne_pair` — the entry of a map whose pair splits
-/

set_option autoImplicit false

namespace Yalantinglibs.StructPack

open ByteCodec PathSearch

namespace TypeEnv

variable (Γ : TypeEnv)

/-- The value of an entry. -/
def entryMapped (e : Val) : Val := e.items.getD 1 .null

/-- The values directly inside a value, with their types. -/
def parts : Ty × Val → List (Ty × Val)
  | (.uniquePtr t, .engaged v) => [(t, v)]
  | (.polymorphic base, .alt i v) => ((Γ.dispatch base i).map fun found => (found.2, v)).toList
  | (.optional t, .engaged v) => [(t, v)]
  | (.compatible t _, .engaged v) => [(t, v)]
  | (.array t _, .list xs) => xs.map fun x => (t, x)
  | (.container _ t, .list xs) => xs.map fun x => (t, x)
  | (.set _ t, .list xs) => xs.map fun x => (t, x)
  | (.map _ k m, .list es) => es.flatMap fun e => [(k, entryKey e), (m, entryMapped e)]
  | (.tuple ts, .list xs) => ts.zip xs
  | (.variant ts, .alt i v) => (ts[i]?.map fun t => (t, v)).toList
  | (.expected t e, .alt i v) => [(if i = 1 then t else e, v)]
  | (.pair a b, .list xs) => [a, b].zip xs
  | (.struct name, .list xs) => (Γ.fields name).zip xs
  | _ => []

/-- `P` holds of a value and of all values inside it. -/
def Everywhere (P : Ty → Val → Prop) (t : Ty) (v : Val) : Prop :=
  ∀ p, Reaches Γ.parts (t, v) p → P p.1 p.2

variable {Γ} {P : Ty → Val → Prop} {t u : Ty} {v x : Val}

theorem Everywhere.self (h : Γ.Everywhere P t v) : P t v := h _ (.refl _)

theorem Everywhere.part (h : Γ.Everywhere P t v) (hu : (u, x) ∈ Γ.parts (t, v)) :
    Γ.Everywhere P u x :=
  fun p hp => h p (.head hu hp)

/-! ### Deciding a condition -/

/-- What is inside a part lies deeper. -/
theorem height_lt_of_part (hu : (u, x) ∈ Γ.parts (t, v)) : x.height < v.height := by
  have hmany : ∀ {ts : List Ty} {xs : List Val}, (u, x) ∈ ts.zip xs →
      x.height < (Val.list xs).height := fun h => Val.height_lt_of_mem_items (List.of_mem_zip h).2
  have hitem : ∀ (e : Val) (i : ℕ), (e.items.getD i .null).height ≤ e.height := by
    intro e i
    by_cases hi : i < e.items.length
    · rw [List.getD_eq_getElem _ _ hi]
      exact (Val.height_lt_of_mem_items (List.getElem_mem hi)).le
    · rw [List.getD_eq_default _ _ (Nat.not_lt.mp hi)]
      exact e.height_pos
  cases t <;> cases v <;> simp only [parts, List.not_mem_nil] at hu
  case map.list kind k m es =>
    obtain ⟨e, he, hx⟩ := List.mem_flatMap.mp hu
    have hlt : e.height < (Val.list es).height := Val.height_lt_of_mem_items he
    simp only [List.mem_cons, List.not_mem_nil, or_false, Prod.mk.injEq] at hx
    rcases hx with ⟨-, rfl⟩ | ⟨-, rfl⟩
    · rw [entryKey, List.headD_eq_getD]
      exact (hitem e 0).trans_lt hlt
    · exact (hitem e 1).trans_lt hlt
  case variant.alt ts i v =>
    obtain ⟨t, ht, h⟩ := Option.map_eq_some_iff.mp (Option.mem_toList.mp hu)
    obtain rfl := (Prod.mk.inj h).2
    rw [Val.height]
    omega
  case polymorphic.alt base i v =>
    obtain ⟨found, -, h⟩ := Option.map_eq_some_iff.mp (Option.mem_toList.mp hu)
    obtain rfl := (Prod.mk.inj h).2
    rw [Val.height]
    omega
  case expected.alt t e i v =>
    obtain rfl := (Prod.mk.inj (List.mem_singleton.mp hu)).2
    rw [Val.height]
    omega
  case pair.list | tuple.list | struct.list => exact hmany hu
  case container.list | set.list | array.list =>
    obtain ⟨y, hy, h⟩ := List.mem_map.mp hu
    obtain rfl := (Prod.mk.inj h).2
    exact Val.height_lt_of_mem_items hy
  all_goals
    obtain rfl := (Prod.mk.inj (List.mem_singleton.mp hu)).2
    rw [Val.height]
    omega

variable (Γ) in
/-- A value and what is inside it, down to a depth. -/
def within : ℕ → Ty × Val → List (Ty × Val)
  | 0, _ => []
  | n + 1, p => p :: (Γ.parts p).flatMap (within n)

theorem mem_within_iff {n : ℕ} {p q : Ty × Val} (hn : p.2.height ≤ n) :
    q ∈ Γ.within n p ↔ Reaches Γ.parts p q := by
  induction n generalizing p with
  | zero => exact absurd p.2.height_pos (by omega)
  | succ n ih =>
    have hparts : ∀ r ∈ Γ.parts p, (q ∈ Γ.within n r ↔ Reaches Γ.parts r q) := fun r hr =>
      ih (Nat.le_of_lt_succ ((height_lt_of_part (v := p.2) (t := p.1) hr).trans_le hn))
    rw [within, List.mem_cons, List.mem_flatMap]
    constructor
    · rintro (rfl | ⟨r, hr, hq⟩)
      · exact .refl q
      · exact .head hr ((hparts r hr).mp hq)
    · intro h
      rcases Relation.ReflTransGen.cases_head h with rfl | ⟨r, hr, hq⟩
      · exact .inl rfl
      · exact .inr ⟨r, hr, (hparts r hr).mpr hq⟩

instance [∀ u x, Decidable (P u x)] : Decidable (Γ.Everywhere P t v) :=
  decidable_of_iff (∀ p ∈ Γ.within v.height (t, v), P p.1 p.2)
    (by simp only [Everywhere, mem_within_iff (p := (t, v)) le_rfl])

/-! ### Conditions -/

variable (Γ)

/-- Every container of a value has a length that fits a field of `w` bytes. -/
def FitsWidth (w : ℕ) : Ty → Val → Prop :=
  Γ.Everywhere fun u x => isContainer u = true → x.items.length < 256 ^ w

/-- The sets and maps of a value are empty. -/
def NoKeys : Ty → Val → Prop :=
  Γ.Everywhere fun u x =>
    match u with
    | .set _ _ | .map _ _ _ => x.items = []
    | _ => True

/-- There are no `compatible` members in a value, behind a pointer to a base class neither. -/
def NoCompatible : Ty → Val → Prop := Γ.Everywhere fun u _ => u.isCompatible = false

/-- The pair of a map is written as its first member followed by its second: without padding,
and neither is coded as a varint because of the config that the pair is written under. -/
def PairSplits (k m : Ty) : Prop :=
  if Γ.isTrivialSerializable (.pair k m) then
    Γ.sizeof (.pair k m) = (Γ.calculateTrivialSize k).total + (Γ.calculateTrivialSize m).total
  else if Γ.isTrivialIgnoringCompatible (.pair k m) then
    Γ.totalPaddingSize (.pair k m) = 0
  else
    ∀ u ∈ [k, m], isVarint (Γ.getParentTag (.pair k m)) u = true →
      isEnableFastVarintCoding (Γ.getParentTag (.pair k m)) = false ∧
        isVarint SpConfig.DEFAULT u = true

/-- Here the reader consumes what the writer writes. -/
def readAsWrittenHere (t : Ty) (v : Val) : Prop :=
  match t with
  | .map _ k m => v.items ≠ [] → Γ.PairSplits k m
  -- it is written as nothing, but viewed as one byte
  | .trivialView .monostate => False
  | _ => True

/-- The reader consumes what the writer writes, here and in all values inside. -/
def ReadAsWritten : Ty → Val → Prop := Γ.Everywhere Γ.readAsWrittenHere

instance (w : ℕ) (t : Ty) (v : Val) : Decidable (Γ.FitsWidth w t v) :=
  inferInstanceAs (Decidable (Γ.Everywhere _ t v))

instance (t : Ty) (v : Val) : Decidable (Γ.NoCompatible t v) :=
  inferInstanceAs (Decidable (Γ.Everywhere _ t v))

instance (k m : Ty) : Decidable (Γ.PairSplits k m) := by
  unfold PairSplits
  infer_instance

instance (t : Ty) (v : Val) : Decidable (Γ.readAsWrittenHere t v) := by
  unfold readAsWrittenHere
  split <;> infer_instance

instance (t : Ty) (v : Val) : Decidable (Γ.ReadAsWritten t v) :=
  inferInstanceAs (Decidable (Γ.Everywhere _ t v))

/-! ### Entries of maps -/

variable {Γ} {w : ℕ}

@[simp] theorem isEnableFastVarintCoding_default :
    isEnableFastVarintCoding SpConfig.DEFAULT = false := rfl

@[simp] theorem varintForm_default_fundamental (k : Fundamental) :
    varintForm SpConfig.DEFAULT (.fundamental k) = none := rfl

/-- A trivially serializable value is written as its object representation. -/
theorem serializeOne_trivial (h : Γ.HasTy t v) (htriv : Γ.isTrivialSerializable t = true) :
    Γ.serializeOne w SpConfig.DEFAULT t v = serializeTrivial t v.repr := by
  cases h with
  | image t b hagg => cases t <;> simp [isAggregate] at hagg <;> simp [serializeOne, serializeTrivial]
  | array t n xs hnot => simp [hnot] at htriv
  | pair a b x y hnot => rw [htriv] at hnot; cases hnot
  | struct name xs hnot => rw [htriv] at hnot; cases hnot
  | fundamental | enumeration | monostate => simp [serializeOne, serializeTrivial]
  | _ => simp [isTrivialSerializable, isTrivialSerializableIn] at htriv

theorem serializeTrivial_length (h : Γ.HasTy t v) (htriv : Γ.isTrivialSerializable t = true) :
    (serializeTrivial t v.repr).length = (Γ.calculateTrivialSize t).total := by
  obtain ⟨b, rfl, hlen⟩ := h.exists_repr htriv
  cases t <;> simp [serializeTrivial, calculateTrivialSize, hlen]

/-- A varint member is coded alike under two configs without fast coding. -/
theorem serializeOne_congr_tag {tag : SpConfig} (h : isVarint tag u = true →
      isEnableFastVarintCoding tag = false ∧ isVarint SpConfig.DEFAULT u = true) (x : Val) :
    Γ.serializeOne w tag u x = Γ.serializeOne w SpConfig.DEFAULT u x := by
  cases u with
  | varInt k =>
    have hfast := (h (by cases k <;> rfl)).1
    cases k <;> simp [serializeOne, varintForm, serializeVarintMember, hfast]
  | fundamental k =>
    have hnot : varintForm tag (.fundamental k) = none := by
      by_contra hne
      have := (h (by rw [isVarint, Option.isSome_iff_ne_none]; exact hne)).2
      simp [isVarint] at this
    simp [serializeOne, hnot]
  | _ => cases x <;> simp [serializeOne]

/-- No padding is left in an image that is no longer than its members. -/
private theorem pairImage_of_sizeof {k m : Ty} {x y : Bytes} {padding : ℕ → UInt8}
    (h : Γ.sizeof (.pair k m) = Γ.sizeof k + Γ.sizeof m) :
    Γ.pairImage k m x y padding = x ++ y := by
  have hle := Γ.le_sizeof_pair k m
  have hup := le_alignUp (Γ.sizeof k) (alignIn Γ.layouts m)
  have hgap : ∀ {a b : ℕ}, b ≤ a → gap padding a b = [] := fun hab =>
    List.eq_nil_of_length_eq_zero (by rw [gap_length, Nat.sub_eq_zero_of_le hab])
  rw [pairImage, secondOffset, hgap (by omega), hgap (by omega), List.append_nil, List.append_nil]

/-- A `monostate` has a size and no bytes. -/
theorem calculateTrivialSize_le_sizeof (Γ : TypeEnv) (u : Ty) :
    (Γ.calculateTrivialSize u).total ≤ Γ.sizeof u := by
  cases u <;> simp [calculateTrivialSize]

/-- The entry of a map whose pair splits is a key followed by a mapped value. -/
theorem serializeOne_pair {k m : Ty} {x y : Val} (hx : Γ.HasTy k x) (hy : Γ.HasTy m y)
    (hsplit : Γ.PairSplits k m) :
    Γ.serializeOne w SpConfig.DEFAULT (.pair k m) (.entry x y) =
      Γ.serializeOne w SpConfig.DEFAULT k x ++ Γ.serializeOne w SpConfig.DEFAULT m y := by
  rw [PairSplits] at hsplit
  simp only [serializeOne, Val.entry, serializeClass]
  split_ifs at hsplit ⊢ with htriv hpadded hfast
  · -- both members are images, and neither is a `monostate`, which has a size and no bytes
    rw [isTrivialSerializable_pair, Bool.and_eq_true] at htriv
    have hle := Γ.le_sizeof_pair k m
    have hup := le_alignUp (Γ.sizeof k) (alignIn Γ.layouts m)
    have hk := Γ.calculateTrivialSize_le_sizeof k
    have hm := Γ.calculateTrivialSize_le_sizeof m
    have hsame : ∀ (u : Ty) (b : Bytes), Γ.sizeof u ≤ (Γ.calculateTrivialSize u).total →
        serializeTrivial u b = b := by
      intro u b hu
      cases u with
      | monostate => simp [sizeof, sizeIn, calculateTrivialSize] at hu
      | _ => rfl
    rw [serializeOne_trivial hx htriv.1, serializeOne_trivial hy htriv.2,
      hsame k _ (by omega), hsame m _ (by omega)]
    exact pairImage_of_sizeof (by omega)
  · have hsum := Γ.paddingSize_tail_sum (t := .pair k m) rfl
    have hlen := Γ.paddingSize_tail_length (t := .pair k m) rfl
    rw [hsplit] at hsum
    obtain ⟨p, q, hpq⟩ := List.length_eq_two.mp hlen
    rw [hpq] at hsum ⊢
    obtain ⟨rfl, rfl⟩ : p = 0 ∧ q = 0 := by simpa using hsum
    simp [serializePadded]
  · -- in fast mode there is no varint member
    have hnone : ∀ u ∈ [k, m], varintForm (Γ.getParentTag (.pair k m)) u = none := by
      intro u hu
      by_contra hne
      have := (hsplit u hu (by rw [isVarint, Option.isSome_iff_ne_none]; exact hne)).1
      simp [hfast] at this
    have hmembers : varintMembers (Γ.getParentTag (.pair k m)) [k, m] [x, y] = [] := by
      simp [varintMembers, hnone]
    simp only [getTypes, hmembers, fastVarintBytes, if_true, List.nil_append, serializeMany,
      List.append_nil]
    rw [serializeOne_congr_tag (hsplit k (by simp)), serializeOne_congr_tag (hsplit m (by simp))]
  · simp only [List.nil_append, serializeMany, List.append_nil]
    rw [serializeOne_congr_tag (hsplit k (by simp)), serializeOne_congr_tag (hsplit m (by simp))]

end TypeEnv

end Yalantinglibs.StructPack
