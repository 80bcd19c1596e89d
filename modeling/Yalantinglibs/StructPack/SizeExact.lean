import Yalantinglibs.StructPack.CompatibleMembers

/-!
# The computed size of a value

The size pass counts the payload, the container lengths and every `compatible` member. The
writer writes the same payload, and a `compatible` member in the pass of its version, but
nothing of a `compatible` member inside another, nor of one behind a pointer to a base class.

## Main definitions

* `TypeEnv.compatibleSizes` — what the size pass counts for `compatible` members
* `TypeEnv.NoContainer` — a type without containers

## Main results

* `calculateOneSize_bytes` — the size of a value is its payload and its `compatible` members
* `calculateOneSize_sizeCnt` — no container length is counted for a type without containers
-/

set_option autoImplicit false

namespace Yalantinglibs.StructPack

open ByteCodec PathSearch

namespace TypeEnv

variable (Γ : TypeEnv)

/-- What the size pass counts for a `compatible` member. -/
def compatibleSize (w : ℕ) (c : CompatibleMember) : ℕ :=
  (Γ.calculateOneSize SpConfig.DEFAULT (.compatible c.type c.version) c.val).bytes w

/-- What the size pass counts for a list of `compatible` members. -/
def compatibleSizes (w : ℕ) (cs : List CompatibleMember) : ℕ := (cs.map (Γ.compatibleSize w)).sum

section Value

variable {Γ} {t : Ty} {ts : List Ty} {v x : Val} {xs : List Val} {w : ℕ} {tag : SpConfig}

@[simp] theorem compatibleSizes_nil : Γ.compatibleSizes w [] = 0 := rfl

@[simp] theorem compatibleSizes_append (cs ds : List CompatibleMember) :
    Γ.compatibleSizes w (cs ++ ds) = Γ.compatibleSizes w cs + Γ.compatibleSizes w ds := by
  simp [compatibleSizes]

/-- The size of a value is that of its payload and of its `compatible` members. -/
def SizeSplits (Γ : TypeEnv) (w : ℕ) (t : Ty) (v : Val) : Prop :=
  ∀ tag, (Γ.calculateOneSize tag t v).bytes w =
    (Γ.serializeOne w tag t v).length + Γ.compatibleSizes w (Γ.compatibles true t v)

theorem calculateAllSize_bytes (h : ∀ x ∈ xs, Γ.SizeSplits w t x) :
    (Γ.calculateAllSize t xs).bytes w =
      (Γ.serializeAll w t xs).length + Γ.compatibleSizes w (Γ.compatiblesAll true t xs) := by
  induction xs with
  | nil => simp [calculateAllSize, serializeAll, compatiblesAll]
  | cons x xs ih =>
    rw [calculateAllSize, serializeAll, compatiblesAll, SizeInfo.bytes_add,
      h x List.mem_cons_self, ih fun y hy => h y (List.mem_cons_of_mem _ hy),
      List.length_append, compatibleSizes_append]
    omega

theorem calculatePayloadSize_bytes (tag : SpConfig) (h : ∀ p ∈ ts.zip xs, Γ.SizeSplits w p.1 p.2) :
    (Γ.calculatePayloadSize tag ts xs).bytes w =
      (Γ.serializeMany w tag ts xs).length + Γ.compatibleSizes w (Γ.compatiblesMany true ts xs) := by
  induction ts generalizing xs with
  | nil => simp [calculatePayloadSize, serializeMany, compatiblesMany]
  | cons t ts ih =>
    cases xs with
    | nil => simp [calculatePayloadSize, serializeMany, compatiblesMany]
    | cons x xs =>
      have hx : Γ.SizeSplits w t x := h (t, x) (by simp)
      rw [calculatePayloadSize, serializeMany, compatiblesMany, SizeInfo.bytes_add, hx tag,
        ih fun p hp => h p (by simp [hp]), List.length_append, compatibleSizes_append]
      omega

/-- The members of a padded struct: as without padding, and the padding. -/
theorem serializePadded_length {ps : List ℕ} (hps : ps.length = ts.length)
    (hlen : ts.length = xs.length) :
    (Γ.serializePadded w ts ps xs).length =
      (Γ.serializeMany w SpConfig.DEFAULT ts xs).length + ps.sum := by
  induction ts generalizing ps xs with
  | nil =>
    obtain rfl : ps = [] := List.length_eq_zero_iff.mp hps
    simp [serializePadded, serializeMany]
  | cons t ts ih =>
    match ps, xs, hps, hlen with
    | p :: ps, x :: xs, hps, hlen =>
      simp only [serializePadded, serializeMany, List.length_append, List.length_replicate,
        List.sum_cons, ih (Nat.succ.inj hps) (Nat.succ.inj hlen)]
      omega

/-- A class object that is not trivially serializable. -/
theorem calculateClassSize_bytes (hclass : isClass t = true)
    (htriv : Γ.isTrivialSerializable t = false) (hlen : (Γ.getTypes t).length = xs.length)
    (hty : ∀ p ∈ (Γ.getTypes t).zip xs, Γ.HasTy p.1 p.2)
    (h : ∀ p ∈ (Γ.getTypes t).zip xs, Γ.SizeSplits w p.1 p.2) :
    (Γ.calculateClassSize t xs fun tag => Γ.calculatePayloadSize tag (Γ.getTypes t) xs).bytes w =
      (Γ.serializeClass t xs (Γ.serializePadded w (Γ.getTypes t) (Γ.paddingSize t).tail xs)
        fun tag => Γ.serializeMany w tag (Γ.getTypes t) xs).length +
      Γ.compatibleSizes w (Γ.compatiblesMany true (Γ.getTypes t) xs) := by
  have hpayload := fun tag => calculatePayloadSize_bytes tag h
  rw [calculateClassSize, serializeClass, htriv, if_neg Bool.false_ne_true]
  split
  · rw [SizeInfo.bytes_add, hpayload, SizeInfo.bytes_ofTotal,
      serializePadded_length (Γ.paddingSize_tail_length hclass) hlen,
      Γ.paddingSize_tail_sum hclass]
    omega
  · rw [SizeInfo.bytes_add, hpayload, List.length_append]
    split
    · rw [SizeInfo.bytes_ofTotal, fastVarintBytes_length (varintMembers_wellSized hty)]
      omega
    · simp

/-- An entry of a map, written as the pair that the map stores. -/
theorem sizeSplits_entry {k m : Ty} {x y : Val} (hk : Γ.HasTy k x) (hm : Γ.HasTy m y)
    (hx : Γ.SizeSplits w k x) (hy : Γ.SizeSplits w m y) :
    Γ.SizeSplits w (.pair k m) (.list [x, y]) := by
  intro tag
  rw [calculateOneSize, serializeOne, compatibles]
  cases htriv : Γ.isTrivialSerializable (.pair k m) with
  | true =>
    have hboth : Γ.isTrivialSerializable k = true ∧ Γ.isTrivialSerializable m = true := by
      simpa using htriv
    obtain ⟨b, rfl, hb⟩ := hk.exists_repr hboth.1
    obtain ⟨c, rfl, hc⟩ := hm.exists_repr hboth.2
    have hnone : ∀ (t : Ty) (b : Bytes), Γ.isTrivialSerializable t = true →
        Γ.compatibles true t (.bytes b) = [] := by
      intro t b ht
      cases t <;> simp [compatibles] at ht ⊢
    simp only [calculateClassSize, htriv, if_true, SizeInfo.bytes_ofTotal, compatiblesMany,
      hnone _ _ hboth.1, hnone _ _ hboth.2, List.append_nil, compatibleSizes_nil]
    exact (pairImage_length hb hc).symm
  | false =>
    rw [if_neg Bool.false_ne_true]
    refine calculateClassSize_bytes (t := .pair k m) rfl htriv rfl ?_ ?_ <;>
      simp [getTypes, hk, hm, hx, hy]

/-- The elements of a trivially copyable container have no `compatible` members. -/
theorem compatiblesAll_of_trivial (h : ∀ x ∈ xs, Γ.HasTy t x)
    (htriv : Γ.isTrivialSerializable t = true) : Γ.compatiblesAll true t xs = [] := by
  rw [compatiblesAll_eq_flatMap, List.flatMap_eq_nil_iff]
  intro x hx
  obtain ⟨b, rfl, -⟩ := (h x hx).exists_repr htriv
  cases t <;> simp [compatibles] at htriv ⊢

theorem calculateVarintMember_bytes (f : VarintForm) (b : Bytes) :
    (calculateVarintMember tag f b).bytes w = (serializeVarintMember tag f b).length := by
  rw [calculateVarintMember, serializeVarintMember]
  split <;> simp [serializeVarint_length]

/-- The size of a value is exact, up to what is written of its `compatible` members. -/
theorem calculateOneSize_bytes (h : Γ.HasTy t v) : Γ.SizeSplits w t v := by
  induction h with
  | fundamental k b hlen =>
    intro tag
    simp only [calculateOneSize, serializeOne, compatibles, Val.repr_bytes]
    cases varintForm tag (.fundamental k) with
    | some f => simp [calculateVarintMember_bytes]
    | none => simp [hlen]
  | varInt k b hlen =>
    intro tag
    simp only [calculateOneSize, serializeOne, compatibles, Val.repr_bytes]
    cases varintForm tag (.varInt k) with
    | some f => simp [calculateVarintMember_bytes]
    | none => simp
  | enumeration name k b hlen =>
    intro tag
    simp [calculateOneSize, serializeOne, compatibles, hlen]
  | monostate =>
    intro tag
    simp [calculateOneSize, serializeOne, compatibles]
  | image t b hagg htriv hlen =>
    intro tag
    rw [compatibles_image hagg]
    cases t <;> simp [isAggregate] at hagg <;>
      simp [calculateOneSize, serializeOne, hlen]
  | trivialView t b htriv hlen =>
    intro tag
    cases t <;>
      simp [calculateOneSize, serializeOne, compatibles, calculateTrivialSize,
        serializeTrivial, hlen]
  | container kind t xs hlen hxs ih =>
    intro tag
    rw [calculateOneSize, serializeOne, compatibles, SizeInfo.bytes_add, List.length_append,
      toLE_length]
    have hone : SizeInfo.bytes w ⟨0, 1, xs.length⟩ = w := by simp [SizeInfo.bytes]
    rw [hone]
    split <;> rename_i hcopy
    · have htriv : Γ.isTrivialSerializable t = true := by
        rw [isTriviallyCopyable, Bool.and_eq_true] at hcopy
        exact hcopy.2
      rw [SizeInfo.bytes_ofTotal, flatMap_repr_length hxs htriv,
        compatiblesAll_of_trivial hxs htriv, compatibleSizes_nil, Nat.add_zero]
    · rw [calculateAllSize_bytes ih]
      omega
  | set kind t xs hlen hkeys hxs ih =>
    intro tag
    rw [calculateOneSize, serializeOne, compatibles, SizeInfo.bytes_add, List.length_append,
      toLE_length, calculateAllSize_bytes ih]
    have hone : SizeInfo.bytes w ⟨0, 1, xs.length⟩ = w := by simp [SizeInfo.bytes]
    omega
  | map kind k m es hlen hkeys hk hm ihk ihm =>
    intro tag
    have hes : ∀ x ∈ es.map fun e => Val.entry e.1 e.2, Γ.SizeSplits w (.pair k m) x := by
      intro x hx
      obtain ⟨e, he, rfl⟩ := List.mem_map.mp hx
      exact sizeSplits_entry (hk e he) (hm e he) (ihk e he) (ihm e he)
    rw [calculateOneSize, serializeOne, compatibles, SizeInfo.bytes_add, List.length_append,
      toLE_length, calculateAllSize_bytes hes]
    have hone : SizeInfo.bytes w ⟨0, 1, (es.map fun e => Val.entry e.1 e.2).length⟩ = w := by
      simp [SizeInfo.bytes]
    omega
  | array t n xs htriv hlen hxs ih =>
    intro tag
    rw [calculateOneSize, serializeOne, compatibles, calculateAllSize_bytes ih]
  | nullopt t | nullptr t | noObject base =>
    intro tag
    simp [calculateOneSize, serializeOne, compatibles]
  | derived base i t v hfound hv ih =>
    intro tag
    simp only [calculateOneSize, serializeOne, compatibles, if_true,
      Γ.dispatch_of_searchDerived hfound, SizeInfo.bytes_add, SizeInfo.bytes_ofTotal,
      List.length_cons, List.length_append, toLE_length, ih SpConfig.DEFAULT]
    omega
  | optional t v hv ih | uniquePtr t v hv ih =>
    intro tag
    rw [calculateOneSize, serializeOne, compatibles, SizeInfo.bytes_add, ih, List.length_cons,
      SizeInfo.bytes_ofTotal]
    omega
  | variant ts i t v hcount hi hv ih =>
    intro tag
    simp only [calculateOneSize, serializeOne, compatibles, hi, SizeInfo.bytes_add,
      List.length_cons, SizeInfo.bytes_ofTotal, ih SpConfig.DEFAULT]
    omega
  | value t e v hv ih =>
    intro tag
    simp only [calculateOneSize, serializeOne, compatibles, if_true, SizeInfo.bytes_add,
      List.length_cons, SizeInfo.bytes_ofTotal, ih SpConfig.DEFAULT]
    omega
  | error t e v hv ih =>
    intro tag
    have hzero : ¬ (0 : ℕ) = 1 := by decide
    simp only [calculateOneSize, serializeOne, compatibles, if_neg hzero, SizeInfo.bytes_add,
      List.length_cons, SizeInfo.bytes_ofTotal, ih SpConfig.DEFAULT]
    omega
  | pair a b x y htriv hx hy ihx ihy => exact sizeSplits_entry hx hy ihx ihy
  | tuple ts xs hlen hxs ih =>
    intro tag
    rw [calculateOneSize, serializeOne, compatibles, calculatePayloadSize_bytes _ ih]
  | struct name xs htriv hlen hxs ih =>
    intro tag
    rw [calculateOneSize, serializeOne, compatibles]
    exact calculateClassSize_bytes (t := .struct name) rfl htriv hlen hxs ih
  | empty t version | compatible t version v hv =>
    intro tag
    simp [calculateOneSize, serializeOne, compatibles, compatibleSizes, compatibleSize]

end Value

/-! ### Types without containers -/

section Containers

variable {Γ} {t u : Ty} {ts : List Ty} {v : Val} {xs : List Val} {tag : SpConfig}

/-- No container is met on a walk of the type. -/
def NoContainer (Γ : TypeEnv) (t : Ty) : Prop :=
  ∀ u, Reaches Γ.containerSteps t u → isContainer u = false

theorem noContainer_iff : Γ.NoContainer t ↔ Γ.checkIfHasContainer t = false := by
  rw [← Bool.not_eq_true, checkIfHasContainer_iff, NoContainer]
  simp

theorem NoContainer.component (h : Γ.NoContainer t) (hu : u ∈ Γ.components t) :
    Γ.NoContainer u := by
  intro x hx
  refine h x (.head ?_ hx)
  rwa [containerSteps, if_neg (by simp [h t (.refl t)])]

theorem calculateAllSize_sizeCnt
    (h : ∀ x ∈ xs, (Γ.calculateOneSize SpConfig.DEFAULT t x).sizeCnt = 0) :
    (Γ.calculateAllSize t xs).sizeCnt = 0 := by
  induction xs with
  | nil => rfl
  | cons x xs ih =>
    rw [calculateAllSize, SizeInfo.add_sizeCnt, h x List.mem_cons_self,
      ih fun y hy => h y (List.mem_cons_of_mem _ hy)]

theorem calculatePayloadSize_sizeCnt
    (h : ∀ p ∈ ts.zip xs, ∀ tag, (Γ.calculateOneSize tag p.1 p.2).sizeCnt = 0) :
    (Γ.calculatePayloadSize tag ts xs).sizeCnt = 0 := by
  induction ts generalizing xs with
  | nil => simp [calculatePayloadSize]
  | cons t ts ih =>
    cases xs with
    | nil => rfl
    | cons x xs =>
      rw [calculatePayloadSize, SizeInfo.add_sizeCnt, h (t, x) (by simp),
        ih fun p hp => h p (by simp [hp])]

theorem calculateClassSize_sizeCnt {payload : SpConfig → SizeInfo}
    (h : ∀ tag, (payload tag).sizeCnt = 0) : (Γ.calculateClassSize t xs payload).sizeCnt = 0 := by
  rw [calculateClassSize]
  split
  · rfl
  split
  · simp [h]
  · rw [SizeInfo.add_sizeCnt, h]
    split <;> rfl

theorem calculateVarintMember_sizeCnt (f : VarintForm) (b : Bytes) :
    (calculateVarintMember tag f b).sizeCnt = 0 := by
  rw [calculateVarintMember]
  split <;> rfl

/-- A value of a type without containers has none. -/
theorem calculateOneSize_sizeCnt (h : Γ.HasTy t v) (hno : Γ.NoContainer t) (tag : SpConfig) :
    (Γ.calculateOneSize tag t v).sizeCnt = 0 := by
  induction h generalizing tag with
  | fundamental k b hlen =>
    simp only [calculateOneSize]
    split
    · exact calculateVarintMember_sizeCnt _ _
    · rfl
  | varInt k b hlen =>
    simp only [calculateOneSize]
    split
    · exact calculateVarintMember_sizeCnt _ _
    · rfl
  | enumeration | monostate | nullopt | nullptr | noObject | empty => rfl
  | image t b hagg => cases t <;> simp [isAggregate] at hagg <;> rfl
  | trivialView t b => cases t <;> rfl
  | container kind t xs | set kind t xs | map kind k m es | derived base i t v =>
    exact absurd (hno _ (.refl _)) (by simp [isContainer])
  | array t n xs htriv hlen hxs ih =>
    exact calculateAllSize_sizeCnt fun x hx => ih x hx (hno.component (by simp [components])) _
  | optional t v hv ih | uniquePtr t v hv ih | compatible t version v hv ih =>
    simp only [calculateOneSize, SizeInfo.add_sizeCnt, SizeInfo.ofTotal_sizeCnt,
      ih (hno.component (by simp [components]))]
  | variant ts i t v hcount hi hv ih =>
    simp only [calculateOneSize, hi, SizeInfo.add_sizeCnt, SizeInfo.ofTotal_sizeCnt,
      ih (hno.component (List.mem_of_getElem? hi))]
  | value t e v hv ih =>
    simp only [calculateOneSize, if_true, SizeInfo.add_sizeCnt, SizeInfo.ofTotal_sizeCnt,
      ih (hno.component (by simp [components]))]
  | error t e v hv ih =>
    have hzero : ¬ (0 : ℕ) = 1 := by decide
    simp only [calculateOneSize, if_neg hzero, SizeInfo.add_sizeCnt, SizeInfo.ofTotal_sizeCnt,
      ih (hno.component (by simp [components]))]
  | pair a b x y htriv hx hy ihx ihy =>
    refine calculateClassSize_sizeCnt fun tag => calculatePayloadSize_sizeCnt ?_
    simp [ihx (hno.component (by simp [components])), ihy (hno.component (by simp [components]))]
  | tuple ts xs hlen hxs ih =>
    exact calculatePayloadSize_sizeCnt fun p hp =>
      ih p hp (hno.component (List.of_mem_zip hp).1)
  | struct name xs htriv hlen hxs ih =>
    exact calculateClassSize_sizeCnt fun tag => calculatePayloadSize_sizeCnt fun p hp =>
      ih p hp (hno.component (List.of_mem_zip hp).1)

theorem mem_components_args (Γ : TypeEnv) (ht : t ∈ ts) :
    t = getArgsType ts ∨ t ∈ Γ.components (getArgsType ts) := by
  match ts, ht with
  | [u], ht => exact .inl (List.mem_singleton.mp ht)
  | u :: u' :: ts, ht => exact .inr ht

end Containers

end TypeEnv

end Yalantinglibs.StructPack
