import Yalantinglibs.StructPack.Packer

/-!
# The compatible members of a value

A `compatible` member is written in the pass of its version, found by walking the value
once more. This file lists the members a walk finds and shows that the pass of a version
writes exactly those of its version, one after the other: the test that prunes the walk,
`exist_compatible_member`, never cuts off a member. It does stop at a pointer to a base class,
though, where the computation of the size goes on.

## Main definitions

* `TypeEnv.compatibles` — the `compatible` members of a value, not those inside another
* `TypeEnv.HasTypes` — the arguments of a call and their types

## Main results

* `reaches_of_mem_compatibles` — the type of each of them is found by the compile-time walk
* `serializeVersion_eq` — the bytes of the pass of a version
-/

set_option autoImplicit false

namespace Yalantinglibs.StructPack

open ByteCodec PathSearch

/-- A `compatible` member and its value. -/
structure CompatibleMember where
  type : Ty
  version : Version
  val : Val

namespace TypeEnv

variable (Γ : TypeEnv)

mutual

/-- The `compatible` members of a value, in the order of a walk. The passes over the versions do
not go `behind` a pointer to a base class, the computation of the size does. -/
def compatibles (behind : Bool) : Ty → Val → List CompatibleMember
  | .compatible t version, v => [⟨t, version, v⟩]
  | .uniquePtr t, .engaged v => compatibles behind t v
  | .polymorphic base, .alt i v =>
    match if behind then Γ.dispatch base i else none with
    | some (_, t) => compatibles behind t v
    | none => []
  | .array t _, .list xs => compatiblesAll behind t xs
  | .container _ t, .list xs => compatiblesAll behind t xs
  | .set _ t, .list xs => compatiblesAll behind t xs
  | .map _ k m, .list xs => compatiblesAll behind (.pair k m) xs
  | .tuple ts, .list xs => compatiblesMany behind ts xs
  | .optional t, .engaged v => compatibles behind t v
  | .variant ts, .alt i v =>
    match ts[i]? with
    | some t => compatibles behind t v
    | none => []
  | .expected t e, .alt i v => compatibles behind (if i = 1 then t else e) v
  | .pair a b, .list xs => compatiblesMany behind [a, b] xs
  | .struct name, .list xs => compatiblesMany behind (Γ.fields name) xs
  | _, _ => []

def compatiblesAll (behind : Bool) (t : Ty) : List Val → List CompatibleMember
  | [] => []
  | x :: xs => compatibles behind t x ++ compatiblesAll behind t xs

def compatiblesMany (behind : Bool) : List Ty → List Val → List CompatibleMember
  | t :: ts, x :: xs => compatibles behind t x ++ compatiblesMany behind ts xs
  | _, _ => []

end

/-- What the pass of its version writes for a member. -/
def compatibleBytes (w : ℕ) (c : CompatibleMember) : Bytes :=
  match c.val with
  | .null => [0]
  | .engaged v => 1 :: Γ.serializeOne w SpConfig.DEFAULT c.type v
  | _ => []

/-- `xs` are arguments of the types `ts`. -/
def HasTypes (ts : List Ty) (xs : List Val) : Prop :=
  ts.length = xs.length ∧ ∀ p ∈ ts.zip xs, Γ.HasTy p.1 p.2

/-! ### Lists of values -/

section Lists

variable {Γ} {t : Ty} {ts : List Ty} {x : Val} {xs : List Val} {w : ℕ} {tag : SpConfig}
  {version : Version} {behind : Bool}

theorem compatiblesAll_eq_flatMap (t : Ty) (xs : List Val) :
    Γ.compatiblesAll behind t xs = xs.flatMap (Γ.compatibles behind t) := by
  induction xs with
  | nil => rfl
  | cons x xs ih => rw [compatiblesAll, ih, List.flatMap_cons]

theorem compatiblesMany_eq_flatMap (ts : List Ty) (xs : List Val) :
    Γ.compatiblesMany behind ts xs = (ts.zip xs).flatMap fun p => Γ.compatibles behind p.1 p.2 := by
  induction ts generalizing xs with
  | nil => simp [compatiblesMany]
  | cons t ts ih =>
    cases xs with
    | nil => simp [compatiblesMany]
    | cons x xs => rw [compatiblesMany, ih, List.zip_cons_cons, List.flatMap_cons]

theorem compatibles_image (hagg : isAggregate t = true) (b : Bytes) :
    Γ.compatibles behind t (.bytes b) = [] := by
  cases t <;> simp [isAggregate] at hagg <;> rfl

theorem serializeVersionAll_eq_flatMap (t : Ty) (xs : List Val) :
    Γ.serializeVersionAll w version t xs = xs.flatMap (Γ.serializeVersion w version t) := by
  induction xs with
  | nil => rfl
  | cons x xs ih => rw [serializeVersionAll, ih, List.flatMap_cons]

theorem serializeVersionMany_eq_flatMap (ts : List Ty) (xs : List Val) :
    Γ.serializeVersionMany w version ts xs =
      (ts.zip xs).flatMap fun p => Γ.serializeVersion w version p.1 p.2 := by
  induction ts generalizing xs with
  | nil => simp [serializeVersionMany]
  | cons t ts ih =>
    cases xs with
    | nil => simp [serializeVersionMany]
    | cons x xs => rw [serializeVersionMany, ih, List.zip_cons_cons, List.flatMap_cons]

end Lists

/-! ### The walk of the types finds every member -/

section Reach

variable {Γ} {t u : Ty} {v : Val} {c : CompatibleMember} {behind : Bool}

/-- A component that leads to the member leads there from the type around it. -/
theorem reaches_of_component (hc : t.isCompatible = false) (hu : u ∈ Γ.components t) {x : Ty}
    (h : Reaches Γ.compatibleSteps u x) : Reaches Γ.compatibleSteps t x := by
  refine .head ?_ h
  rwa [compatibleSteps, if_neg (by simp [hc])]

/-- The walk of the type finds a member, unless it is behind a pointer to a base class. Then the
search for containers stops at that pointer, if it does not find a container before. -/
def Found (Γ : TypeEnv) (behind : Bool) (t : Ty) (c : CompatibleMember) : Prop :=
  Reaches Γ.compatibleSteps t (.compatible c.type c.version) ∨
    behind = true ∧ Γ.checkIfHasContainer t = true

theorem Found.component (hc : t.isCompatible = false) (hu : u ∈ Γ.components t)
    (h : Γ.Found behind u c) : Γ.Found behind t c := by
  apply h.imp (reaches_of_component hc hu)
  apply And.imp_right
  rw [checkIfHasContainer_iff, checkIfHasContainer_iff]
  rintro ⟨x, hreach, hx⟩
  by_cases ht : isContainer t = true
  · exact ⟨t, .refl _, ht⟩
  · refine ⟨x, .head ?_ hreach, hx⟩
    rwa [containerSteps, if_neg ht]

/-- The members found in a value are values of `compatible` types, which the walk of its type
finds. -/
theorem of_mem_compatibles (h : Γ.HasTy t v) (hc : c ∈ Γ.compatibles behind t v) :
    Γ.Found behind t c ∧ Γ.HasTy (.compatible c.type c.version) c.val := by
  induction h with
  | empty t version =>
    rw [compatibles, List.mem_singleton] at hc
    subst hc
    exact ⟨.inl (.refl _), .empty t version⟩
  | compatible t version v hv =>
    rw [compatibles, List.mem_singleton] at hc
    subst hc
    exact ⟨.inl (.refl _), .compatible t version v hv⟩
  | container kind t xs hlen hxs ih | set kind t xs hlen hkeys hxs ih
  | array t n xs htriv hlen hxs ih =>
    rw [compatibles, compatiblesAll_eq_flatMap] at hc
    obtain ⟨x, hx, hc⟩ := List.mem_flatMap.mp hc
    exact (ih x hx hc).imp_left (.component rfl (by simp [components]))
  | map kind k m es hlen hkeys hk hm ihk ihm =>
    rw [compatibles, compatiblesAll_eq_flatMap, List.flatMap_map] at hc
    obtain ⟨e, he, hc⟩ := List.mem_flatMap.mp hc
    simp only [Val.entry, compatibles, compatiblesMany, List.append_nil] at hc
    rcases List.mem_append.mp hc with hc | hc
    · exact (ihk e he hc).imp_left (.component rfl (by simp [components]))
    · exact (ihm e he hc).imp_left (.component rfl (by simp [components]))
  | optional t v hv ih | uniquePtr t v hv ih =>
    rw [compatibles] at hc
    exact (ih hc).imp_left (.component rfl (by simp [components]))
  | variant ts i t v hcount hi hv ih =>
    simp only [compatibles, hi] at hc
    exact (ih hc).imp_left (.component rfl (List.mem_of_getElem? hi))
  | value t e v hv ih =>
    rw [compatibles, if_pos rfl] at hc
    exact (ih hc).imp_left (.component rfl (by simp [components]))
  | error t e v hv ih =>
    rw [compatibles, if_neg (by decide)] at hc
    exact (ih hc).imp_left (.component rfl (by simp [components]))
  | pair a b x y htriv hx hy ihx ihy =>
    simp only [compatibles, compatiblesMany, List.append_nil] at hc
    rcases List.mem_append.mp hc with hc | hc
    · exact (ihx hc).imp_left (.component rfl (by simp [components]))
    · exact (ihy hc).imp_left (.component rfl (by simp [components]))
  | tuple ts xs hlen hxs ih | struct ts xs htriv hlen hxs ih =>
    rw [compatibles, compatiblesMany_eq_flatMap] at hc
    obtain ⟨p, hp, hc⟩ := List.mem_flatMap.mp hc
    exact (ih p hp hc).imp_left (.component rfl (List.of_mem_zip hp).1)
  | derived base i t v hfound hv ih =>
    cases behind with
    | false => simp [compatibles] at hc
    | true =>
      simp only [compatibles, if_true, Γ.dispatch_of_searchDerived hfound] at hc
      exact ⟨.inr ⟨rfl, Γ.checkIfHasContainer_iff.mpr ⟨_, .refl _, rfl⟩⟩, (ih hc).2⟩
  | image t b hagg => simp [compatibles_image hagg] at hc
  | _ => simp [compatibles] at hc

theorem reaches_of_mem_compatibles (h : Γ.HasTy t v) (hc : c ∈ Γ.compatibles false t v) :
    Reaches Γ.compatibleSteps t (.compatible c.type c.version) :=
  (of_mem_compatibles h hc).1.resolve_right nofun

/-- The members found in the arguments are found by the walk of the type of all arguments. -/
theorem of_mem_compatiblesMany {ts : List Ty} {xs : List Val} (h : Γ.HasTypes ts xs)
    (hc : c ∈ Γ.compatiblesMany behind ts xs) :
    Γ.Found behind (getArgsType ts) c ∧ Γ.HasTy (.compatible c.type c.version) c.val := by
  rw [compatiblesMany_eq_flatMap] at hc
  obtain ⟨p, hp, hc⟩ := List.mem_flatMap.mp hc
  obtain ⟨hfound, hty⟩ := of_mem_compatibles (h.2 p hp) hc
  refine ⟨?_, hty⟩
  have hp : p.1 ∈ ts := (List.of_mem_zip hp).1
  match ts, hp with
  | [t], hp => rwa [getArgsType, ← List.mem_singleton.mp hp]
  | t :: u :: ts, hp => exact hfound.component (t := .tuple (t :: u :: ts)) rfl hp

theorem reaches_of_mem_compatiblesMany {ts : List Ty} {xs : List Val} (h : Γ.HasTypes ts xs)
    (hc : c ∈ Γ.compatiblesMany false ts xs) :
    Reaches Γ.compatibleSteps (getArgsType ts) (.compatible c.type c.version) :=
  (of_mem_compatiblesMany h hc).1.resolve_right nofun

theorem compatiblesMany_eq_nil {ts : List Ty} {xs : List Val} (h : Γ.HasTypes ts xs)
    (hex : Γ.existCompatibleMember (getArgsType ts) = false) :
    Γ.compatiblesMany false ts xs = [] := by
  rw [List.eq_nil_iff_forall_not_mem]
  intro c hc
  have := Γ.existCompatibleMember_iff_reaches.mpr
    ⟨c.type, c.version, reaches_of_mem_compatiblesMany h hc⟩
  simp [hex] at this

private theorem flatMap_sublist {α β : Type*} {xs : List α} {f g : α → List β}
    (h : ∀ x ∈ xs, (f x).Sublist (g x)) : (xs.flatMap f).Sublist (xs.flatMap g) := by
  induction xs with
  | nil => exact List.Sublist.refl _
  | cons x xs ih =>
    rw [List.flatMap_cons, List.flatMap_cons]
    exact (h x List.mem_cons_self).append (ih fun y hy => h y (List.mem_cons_of_mem x hy))

/-- The passes over the versions come to no other members than the computation of the size. -/
theorem compatibles_sublist (h : Γ.HasTy t v) :
    (Γ.compatibles false t v).Sublist (Γ.compatibles true t v) := by
  induction h with
  | container kind t xs hlen hxs ih | set kind t xs hlen hkeys hxs ih
  | array t n xs htriv hlen hxs ih =>
    rw [compatibles, compatibles, compatiblesAll_eq_flatMap, compatiblesAll_eq_flatMap]
    exact flatMap_sublist ih
  | map kind k m es hlen hkeys hk hm ihk ihm =>
    rw [compatibles, compatibles, compatiblesAll_eq_flatMap, compatiblesAll_eq_flatMap,
      List.flatMap_map, List.flatMap_map]
    apply flatMap_sublist
    intro e he
    simp only [Val.entry, compatibles, compatiblesMany, List.append_nil]
    exact (ihk e he).append (ihm e he)
  | optional t v hv ih | uniquePtr t v hv ih => exact ih
  | variant ts i t v hcount hi hv ih =>
    simp only [compatibles, hi]
    exact ih
  | value t e v hv ih => exact ih
  | error t e v hv ih => exact ih
  | pair a b x y htriv hx hy ihx ihy =>
    simp only [compatibles, compatiblesMany, List.append_nil]
    exact ihx.append ihy
  | tuple ts xs hlen hxs ih | struct ts xs htriv hlen hxs ih =>
    rw [compatibles, compatibles, compatiblesMany_eq_flatMap, compatiblesMany_eq_flatMap]
    exact flatMap_sublist ih
  | derived base i t v hfound hv ih => exact List.nil_sublist _
  | image t b hagg =>
    rw [compatibles_image hagg]
    exact List.nil_sublist _
  | _ => exact List.Sublist.refl _

theorem compatiblesMany_sublist {ts : List Ty} {xs : List Val} (h : Γ.HasTypes ts xs) :
    (Γ.compatiblesMany false ts xs).Sublist (Γ.compatiblesMany true ts xs) := by
  rw [compatiblesMany_eq_flatMap, compatiblesMany_eq_flatMap]
  exact flatMap_sublist fun p hp => compatibles_sublist (h.2 p hp)

end Reach

/-! ### The pass of a version -/

section Pass

variable {Γ} {t : Ty} {v : Val} {version : Version} {w : ℕ}

/-- Pruning loses nothing: without a reachable member of the version there is none. -/
private theorem whenExists_eq {l : List CompatibleMember}
    (hl : ∀ c ∈ l, Reaches Γ.compatibleSteps t (.compatible c.type c.version)) {b : Bytes}
    (hb : b = (l.filter (·.version = version)).flatMap (Γ.compatibleBytes w)) :
    Γ.whenExists version t b = (l.filter (·.version = version)).flatMap (Γ.compatibleBytes w) := by
  rw [whenExists]
  split <;> rename_i h
  · exact hb
  · have hnone : l.filter (·.version = version) = [] := by
      rw [List.filter_eq_nil_iff]
      intro c hc hver
      obtain rfl : c.version = version := by simpa using hver
      exact h (Γ.existCompatibleMemberOf_iff_reaches.mpr ⟨c.type, hl c hc⟩)
    rw [hnone, List.flatMap_nil]

theorem flatMap_filter_eq {α : Type*} {xs : List α} {f : α → Bytes}
    {g : α → List CompatibleMember}
    (h : ∀ x ∈ xs, f x = ((g x).filter (·.version = version)).flatMap (Γ.compatibleBytes w)) :
    xs.flatMap f =
      ((xs.flatMap g).filter (·.version = version)).flatMap (Γ.compatibleBytes w) := by
  rw [List.filter_flatMap, List.flatMap_assoc]
  exact List.flatMap_congr h

/-- Two members, of a pair or of an entry of a map. -/
private theorem serializeVersion_pair {a b : Ty} {x y : Val}
    (hreach : ∀ c ∈ Γ.compatibles false (.pair a b) (.list [x, y]),
      Reaches Γ.compatibleSteps (.pair a b) (.compatible c.type c.version))
    (hx : Γ.serializeVersion w version a x =
      ((Γ.compatibles false a x).filter (·.version = version)).flatMap (Γ.compatibleBytes w))
    (hy : Γ.serializeVersion w version b y =
      ((Γ.compatibles false b y).filter (·.version = version)).flatMap (Γ.compatibleBytes w)) :
    Γ.serializeVersion w version (.pair a b) (.list [x, y]) =
      ((Γ.compatibles false (.pair a b) (.list [x, y])).filter (·.version = version)).flatMap
        (Γ.compatibleBytes w) := by
  rw [serializeVersion]
  refine whenExists_eq hreach ?_
  simp only [compatibles, compatiblesMany, serializeVersionMany, List.append_nil, hx, hy,
    List.filter_append, List.flatMap_append]

/-- The members of an entry are found by the walk of the pair. -/
private theorem reaches_entry {k m : Ty} {x y : Val} (hx : Γ.HasTy k x) (hy : Γ.HasTy m y)
    {c : CompatibleMember} (hc : c ∈ Γ.compatibles false (.pair k m) (.list [x, y])) :
    Reaches Γ.compatibleSteps (.pair k m) (.compatible c.type c.version) := by
  simp only [compatibles, compatiblesMany, List.append_nil] at hc
  rcases List.mem_append.mp hc with hc | hc
  · exact reaches_of_component rfl (by simp [components]) (reaches_of_mem_compatibles hx hc)
  · exact reaches_of_component rfl (by simp [components]) (reaches_of_mem_compatibles hy hc)

/-- The pass of a version writes the members of that version, one after the other. -/
theorem serializeVersion_eq (h : Γ.HasTy t v) :
    Γ.serializeVersion w version t v =
      ((Γ.compatibles false t v).filter (·.version = version)).flatMap (Γ.compatibleBytes w) := by
  have hreach : ∀ c ∈ Γ.compatibles false t v, _ := fun c hc => reaches_of_mem_compatibles h hc
  induction h with
  | empty t version' | compatible t version' v hv =>
    rw [serializeVersion]
    refine whenExists_eq hreach ?_
    by_cases hver : version = version'
    · simp [compatibles, compatibleBytes, hver]
    · simp [compatibles, hver, Ne.symm hver]
  | container kind t xs hlen hxs ih | set kind t xs hlen hkeys hxs ih
  | array t n xs htriv hlen hxs ih =>
    rw [serializeVersion]
    refine whenExists_eq hreach ?_
    rw [compatibles, serializeVersionAll_eq_flatMap, compatiblesAll_eq_flatMap]
    exact flatMap_filter_eq fun x hx =>
      ih x hx fun c hc => reaches_of_mem_compatibles (hxs x hx) hc
  | map kind k m es hlen hkeys hk hm ihk ihm =>
    rw [serializeVersion]
    refine whenExists_eq hreach ?_
    rw [compatibles, serializeVersionAll_eq_flatMap, compatiblesAll_eq_flatMap]
    refine flatMap_filter_eq fun x hx => ?_
    obtain ⟨e, he, rfl⟩ := List.mem_map.mp hx
    exact serializeVersion_pair (fun c hc => reaches_entry (hk e he) (hm e he) hc)
      (ihk e he fun c hc => reaches_of_mem_compatibles (hk e he) hc)
      (ihm e he fun c hc => reaches_of_mem_compatibles (hm e he) hc)
  | optional t v hv ih | uniquePtr t v hv ih =>
    rw [serializeVersion]
    refine whenExists_eq hreach ?_
    rw [compatibles]
    exact ih fun c hc => reaches_of_mem_compatibles hv hc
  | variant ts i t v hcount hi hv ih =>
    rw [serializeVersion]
    refine whenExists_eq hreach ?_
    simp only [compatibles, hi]
    exact ih fun c hc => reaches_of_mem_compatibles hv hc
  | value t e v hv ih =>
    rw [serializeVersion]
    refine whenExists_eq hreach ?_
    rw [compatibles, if_pos rfl]
    exact ih fun c hc => reaches_of_mem_compatibles hv hc
  | error t e v hv ih =>
    rw [serializeVersion]
    refine whenExists_eq hreach ?_
    rw [compatibles, if_neg (by decide)]
    exact ih fun c hc => reaches_of_mem_compatibles hv hc
  | pair a b x y htriv hx hy ihx ihy =>
    exact serializeVersion_pair hreach (ihx fun c hc => reaches_of_mem_compatibles hx hc)
      (ihy fun c hc => reaches_of_mem_compatibles hy hc)
  | tuple ts xs hlen hxs ih | struct ts xs htriv hlen hxs ih =>
    rw [serializeVersion]
    refine whenExists_eq hreach ?_
    rw [compatibles, serializeVersionMany_eq_flatMap, compatiblesMany_eq_flatMap]
    exact flatMap_filter_eq fun p hp =>
      ih p hp fun c hc => reaches_of_mem_compatibles (hxs p hp) hc
  | image t b hagg =>
    rw [compatibles_image hagg]
    cases t <;> simp [isAggregate] at hagg <;> rfl
  | _ => rfl

theorem serializeVersionMany_eq {ts : List Ty} {xs : List Val} (h : Γ.HasTypes ts xs) :
    Γ.serializeVersionMany w version ts xs =
      ((Γ.compatiblesMany false ts xs).filter (·.version = version)).flatMap (Γ.compatibleBytes w) := by
  rw [serializeVersionMany_eq_flatMap, compatiblesMany_eq_flatMap]
  exact flatMap_filter_eq fun p hp => serializeVersion_eq (h.2 p hp)

end Pass

end TypeEnv

end Yalantinglibs.StructPack
