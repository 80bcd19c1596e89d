import Yalantinglibs.StructPack.ReadClass
import Mathlib.Data.List.TakeWhile

/-!
# Reading containers back

What follows for arrays, containers, sets and maps if their elements are read back. The
elements of a set or a map come in an order that the container keeps, so each is put behind
those that are there already.

## Main results

* `deserializeElements_yields`, `deserializeKeys_yields`, `deserializeEntries_yields` — a
  sequence container, a set and a map are read back if their elements are
* `Reads.pair` — so is a pair, which the entry of a map may be
-/

set_option autoImplicit false

namespace Yalantinglibs.StructPack

open ByteCodec Decoding

namespace TypeEnv

/-! ### Loops -/

section Loops

variable {Γ : TypeEnv} {E : Prop} {w fuel : ℕ} {t : Ty} {v x : Val} {xs olds : List Val}

theorem serializeAll_eq_many (t : Ty) (xs : List Val) :
    Γ.serializeAll w t xs =
      Γ.serializeMany w SpConfig.DEFAULT (List.replicate xs.length t) xs := by
  induction xs with
  | nil => simp [serializeAll, serializeMany]
  | cons x xs ih => rw [serializeAll, ih, List.length_cons, List.replicate_succ, serializeMany]

theorem mem_zip_replicate {p : Ty × Val} (hp : p ∈ (List.replicate xs.length t).zip xs) :
    p.1 = t ∧ p.2 ∈ xs :=
  ⟨List.eq_of_mem_replicate (List.of_mem_zip hp).1, (List.of_mem_zip hp).2⟩

/-- The elements of an array. -/
theorem each_yields_serializeAll (hR : ∀ x ∈ xs, Γ.Reads E w t x) (hty : ∀ x ∈ xs, Γ.HasTy t x)
    (hfuel : Val.heightAll xs ≤ fuel) (olds : List Val) (s : Bytes) :
    (each (List.replicate xs.length (Γ.deserializeOne fuel w true SpConfig.DEFAULT t)) olds
      (Γ.serializeAll w t xs ++ s)).Yields E
      (Γ.SettlesMany SpConfig.DEFAULT (List.replicate xs.length t) olds xs) xs s := by
  have hR' : ∀ p ∈ (List.replicate xs.length t).zip xs, Γ.Reads E w p.1 p.2 := fun p hp => by
    rw [(mem_zip_replicate hp).1]
    exact hR _ (mem_zip_replicate hp).2
  have hty' : ∀ p ∈ (List.replicate xs.length t).zip xs, Γ.HasTy p.1 p.2 := fun p hp => by
    rw [(mem_zip_replicate hp).1]
    exact hty _ (mem_zip_replicate hp).2
  have hmany := each_yields_serializeMany SpConfig.DEFAULT List.length_replicate hR' hty' hfuel
    olds s
  rw [enteredMembers, isEnableFastVarintCoding_default, if_neg Bool.false_ne_true,
    List.map_replicate] at hmany
  rw [serializeAll_eq_many]
  exact hmany

/-- New elements of a sequence container. -/
theorem appendNew_yields_serializeAll (hR : ∀ x ∈ xs, Γ.Reads E w t x)
    (hfuel : Val.heightAll xs ≤ fuel) (s : Bytes) :
    (appendNew (Γ.deserializeOne fuel w true SpConfig.DEFAULT t) (Γ.fresh t) xs.length
      (Γ.serializeAll w t xs ++ s)).Yields E (Γ.SettlesNew t xs) xs s := by
  induction xs with
  | nil => exact Outcome.yields_done (fun _ => rfl) fun _ _ => trivial
  | cons x xs ih =>
    rw [Val.heightAll, max_le_iff] at hfuel
    have ih := ih (fun y hy => hR y (List.mem_cons_of_mem _ hy)) hfuel.2
    have hfirst := hR x List.mem_cons_self fuel hfuel.1 (Γ.fresh t)
      (Γ.serializeAll w t xs ++ s)
    rw [serializeAll, List.append_assoc]
    exact appendNew_yields_succ hfirst ih

/-- An object that settles is decoded to the value. -/
theorem Reads.eq_done (h : Γ.Reads E w t x) (hfuel : x.height ≤ fuel) {old : Val}
    (hold : Γ.Settles t old x) (s : Bytes) :
    Γ.deserializeOne fuel w true SpConfig.DEFAULT t old
      (Γ.serializeOne w SpConfig.DEFAULT t x ++ s) = .done x s :=
  (h fuel hfuel old s).eq_done hold

end Loops

/-! ### Sets and maps -/

section Associative

variable {Γ : TypeEnv} {E : Prop} {w fuel : ℕ} {kind : AssociativeKind} {t k m : Ty} {x : Val}
  {xs acc : List Val}

theorem keyEquivalent_of_precedes {x y : Val} (h : Γ.precedes kind t x y = true)
    (hmulti : kind.multi = false) : Γ.keyEquivalent kind t x y = false := by
  rw [precedes] at h
  rw [keyEquivalent]
  split at h <;> simp_all

/-- An element behind all others is appended. -/
theorem emplace_eq_append {key : Val → Val}
    (h : ∀ y ∈ xs, Γ.precedes kind t (key y) (key x) = true) :
    Γ.emplace kind t key x xs = xs ++ [x] := by
  have hnew : (!kind.multi && xs.any fun y => Γ.keyEquivalent kind t (key y) (key x)) = false := by
    cases hmulti : kind.multi with
    | true => rfl
    | false =>
      simp only [Bool.not_false, Bool.true_and, List.any_eq_false, Bool.not_eq_true]
      exact fun y hy => keyEquivalent_of_precedes (h y hy) hmulti
  rw [emplace, hnew, if_neg Bool.false_ne_true]
  split <;> rename_i hhashed
  · rfl
  · have hbefore : ∀ y ∈ xs, (!Γ.keyLess t (key x) (key y)) = true := by
      intro y hy
      have := h y hy
      rw [precedes, if_neg hhashed, Bool.and_eq_true] at this
      exact this.1
    rw [List.takeWhile_eq_self_iff.mpr hbefore, List.dropWhile_eq_nil_iff.mpr hbefore]

/-- The elements of a set that settle come out in order. -/
theorem deserializeSet_eq_done (hR : ∀ x ∈ xs, Γ.Reads E w t x)
    (hfuel : Val.heightAll xs ≤ fuel) {value : Val} (hsettles : Γ.SettlesKeys t value xs)
    (hkeys : (acc ++ xs).Pairwise fun x y => Γ.precedes kind t x y = true) (s : Bytes) :
    deserializeSet (Γ.deserializeOne fuel w true SpConfig.DEFAULT t) (Γ.movedFrom t)
      (Γ.emplace kind t id) xs.length value acc (Γ.serializeAll w t xs ++ s) =
      .done (acc ++ xs) s := by
  induction xs generalizing value acc with
  | nil => simp [deserializeSet, serializeAll]
  | cons x xs ih =>
    rw [Val.heightAll, max_le_iff] at hfuel
    have hlast : ∀ y ∈ acc, Γ.precedes kind t (id y) (id x) = true := fun y hy =>
      (List.pairwise_append.mp hkeys).2.2 y hy x List.mem_cons_self
    rw [serializeAll, List.append_assoc, List.length_cons, deserializeSet,
      (hR x List.mem_cons_self).eq_done hfuel.1 hsettles.1, Outcome.andThen_done,
      emplace_eq_append hlast, ih (fun z hz => hR z (List.mem_cons_of_mem _ hz)) hfuel.2
        hsettles.2 (by simpa using hkeys)]
    simp

/-- An entry behind all others is new, and is appended. -/
theorem mapFilling_append {es : List (Val × Val)} {key : Val} (m : Ty) (mapped : Val)
    (h : ∀ e ∈ es, Γ.precedes kind k e.1 key = true) :
    (Γ.mapFilling kind k m).holds key (es.map fun e => .entry e.1 e.2) = false ∧
    (Γ.mapFilling kind k m).insert (.entry key mapped) (es.map fun e => .entry e.1 e.2) =
      (es ++ [(key, mapped)]).map fun e => .entry e.1 e.2 := by
  have hnew : ∀ e ∈ es, kind.multi = false → Γ.keyEquivalent kind k e.1 key = false := fun e he =>
    keyEquivalent_of_precedes (h e he)
  rw [mapFilling]
  split
  · refine ⟨?_, by simp⟩
    cases hmulti : kind.multi with
    | true => rfl
    | false =>
      simp only [Bool.not_false, Bool.true_and, List.any_map, List.any_eq_false,
        Function.comp_apply, Bool.not_eq_true]
      exact fun e he => hnew e he hmulti
  · constructor
    · cases hmulti : kind.multi with
      | true => rfl
      | false =>
        simp only [Bool.not_false, Bool.true_and, List.any_map, List.any_eq_false,
          Function.comp_apply, Bool.not_eq_true]
        exact fun e he => hnew e he hmulti
    · have hlast : ∀ y ∈ es.map fun e => Val.entry e.1 e.2,
          Γ.precedes kind k (entryKey y) (entryKey (.entry key mapped)) = true := by
        intro y hy
        obtain ⟨e, he, rfl⟩ := List.mem_map.mp hy
        exact h e he
      simpa using emplace_eq_append hlast

section Entries

variable {es : List (Val × Val)}

theorem height_entry_le {e : Val × Val} (he : e ∈ es)
    (hfuel : Val.heightAll (es.map fun e => .entry e.1 e.2) ≤ fuel) :
    e.1.height ≤ fuel ∧ e.2.height ≤ fuel := by
  have := (Val.height_le_heightAll (List.mem_map_of_mem he)).trans hfuel
  simp only [Val.entry, Val.height, Val.heightAll] at this
  omega

/-- The entries of a map that settle come out in order, in an empty map. -/
theorem deserializeMap_eq_done (hk : ∀ e ∈ es, Γ.Reads E w k e.1)
    (hm : ∀ e ∈ es, Γ.Reads E w m e.2) (htk : ∀ e ∈ es, Γ.HasTy k e.1)
    (htm : ∀ e ∈ es, Γ.HasTy m e.2) (hsplit : Γ.PairSplits k m)
    (hfuel : Val.heightAll (es.map fun e => .entry e.1 e.2) ≤ fuel)
    (hsettles : Γ.SettlesEntries k m (es.map fun e => .entry e.1 e.2)) (value : Val)
    {acc : List (Val × Val)}
    (hkeys : (acc ++ es).Pairwise fun d e => Γ.precedes kind k d.1 e.1 = true) (s : Bytes) :
    deserializeMap (Γ.deserializeOne fuel w true SpConfig.DEFAULT k (Γ.fresh k))
      (Γ.deserializeOne fuel w true SpConfig.DEFAULT m (Γ.fresh m))
      (Γ.deserializeOne fuel w false SpConfig.DEFAULT m) (Γ.mapFilling kind k m) es.length value
      (acc.map fun e => .entry e.1 e.2)
      (Γ.serializeAll w (.pair k m) (es.map fun e => .entry e.1 e.2) ++ s) =
      .done ((acc ++ es).map fun e => .entry e.1 e.2) s := by
  induction es generalizing acc with
  | nil => simp [deserializeMap, serializeAll]
  | cons e es ih =>
    obtain ⟨hke, hme⟩ := height_entry_le List.mem_cons_self hfuel
    rw [List.map_cons, Val.heightAll, max_le_iff] at hfuel
    rw [List.map_cons, SettlesEntries, Val.entry, SettlesEntry] at hsettles
    simp only [SettlesMany, isEnableFastVarintCoding_default, Bool.false_and, Bool.false_eq_true,
      if_false, List.headD_cons, List.tail_cons] at hsettles
    have hlast : ∀ d ∈ acc, Γ.precedes kind k d.1 e.1 = true := fun d hd =>
      (List.pairwise_append.mp hkeys).2.2 d hd e List.mem_cons_self
    obtain ⟨hholds, hinsert⟩ := mapFilling_append m e.2 hlast
    have hkeys' : ((acc ++ [(e.1, e.2)]) ++ es).Pairwise
        fun d e => Γ.precedes kind k d.1 e.1 = true := by
      simpa using hkeys
    rw [List.map_cons, serializeAll, serializeOne_pair (htk e List.mem_cons_self)
      (htm e List.mem_cons_self) hsplit, List.append_assoc, List.append_assoc, List.length_cons,
      deserializeMap, (hk e List.mem_cons_self).eq_done hke hsettles.1.1,
        Outcome.andThen_done, hholds, if_neg Bool.false_ne_true,
      (hm e List.mem_cons_self).eq_done hme hsettles.1.2.1, Outcome.andThen_done, hinsert,
      ih (fun d hd => hk d (List.mem_cons_of_mem _ hd))
        (fun d hd => hm d (List.mem_cons_of_mem _ hd))
        (fun d hd => htk d (List.mem_cons_of_mem _ hd))
        (fun d hd => htm d (List.mem_cons_of_mem _ hd))
        hfuel.2 hsettles.2 hkeys']
    simp

end Entries

end Associative

/-! ### Containers -/

section Containers

variable {Γ : TypeEnv} {E : Prop} {w fuel : ℕ} {t k m : Ty} {xs : List Val}

/-- The elements of a sequence container that is not empty. -/
theorem deserializeElements_yields (kind : ContainerKind) (hne : xs ≠ [])
    (hR : ∀ x ∈ xs, Γ.Reads E w t x) (hty : ∀ x ∈ xs, Γ.HasTy t x)
    (hfuel : Val.heightAll xs ≤ fuel) (old : Val) (s : Bytes) :
    (Γ.deserializeElements (Γ.deserializeOne fuel w) true kind t old xs.length
      ((if Γ.isTriviallyCopyable kind t then xs.flatMap Val.repr else Γ.serializeAll w t xs) ++ s)
      ).Yields E (Γ.Settles (.container kind t) old (.list xs)) (.list xs) s := by
  rw [deserializeElements, Settles]
  simp only [hne, false_imp_iff, true_and]
  by_cases htriv : Γ.isTriviallyCopyable kind t = true
  · have hrepr : Γ.isTrivialSerializable t = true := by
      rw [isTriviallyCopyable, Bool.and_eq_true] at htriv
      exact htriv.2
    have hcond : (kind.continuous && Γ.isTrivialSerializable t) = true := htriv
    rw [if_pos htriv, if_pos hcond, withBytes_append (flatMap_repr_length hty hrepr),
      splitBlock_flatMap fun x hx => (hty x hx).exists_repr hrepr]
    exact Outcome.yields_done (fun _ => rfl) fun _ _ => by simp [htriv]
  · have hcond : ¬ (kind.continuous && Γ.isTrivialSerializable t) = true := htriv
    rw [if_neg htriv, if_neg hcond]
    simp only [if_true, htriv, forall_const]
    exact (appendNew_yields_serializeAll hR hfuel s).map Val.list_injective

/-- The elements of a set that is not empty. -/
theorem deserializeKeys_yields (kind : AssociativeKind) (hne : xs ≠ [])
    (hR : ∀ x ∈ xs, Γ.Reads E w t x)
    (hkeys : xs.Pairwise fun x y => Γ.precedes kind t x y = true)
    (hE : ¬ E) (hfuel : Val.heightAll xs ≤ fuel) (old : Val) (s : Bytes) :
    (Γ.deserializeKeys (Γ.deserializeOne fuel w) true kind t old xs.length
      (Γ.serializeAll w t xs ++ s)).Yields E (Γ.Settles (.set kind t) old (.list xs))
      (.list xs) s := by
  rw [deserializeKeys, Settles, if_pos rfl]
  simp only [hne, false_imp_iff, true_and]
  refine Outcome.yields_of_eq_done (fun hsettles => ?_) hE
  rw [deserializeSet_eq_done hR hfuel hsettles (List.nil_append xs ▸ hkeys) s, Outcome.map_done,
    List.nil_append]

/-- A pair that is not trivially serializable, as an object or as the entry of a map. -/
theorem Reads.pair {a b : Ty} {x y : Val} (htriv : Γ.isTrivialSerializable (.pair a b) = false)
    (hx : Γ.HasTy a x) (hy : Γ.HasTy b y) (hRx : Γ.Reads E w a x) (hRy : Γ.Reads E w b y) :
    Γ.Reads E w (.pair a b) (.list [x, y]) := by
  intro fuel hfuel old s
  obtain ⟨fuel, rfl⟩ := Nat.exists_eq_succ_of_ne_zero ((Val.height_pos _).trans_le hfuel).ne'
  rw [Val.height, Nat.succ_eq_add_one, Nat.add_comm, Nat.add_le_add_iff_right] at hfuel
  have hR : ∀ p ∈ (Γ.getTypes (.pair a b)).zip [x, y], Γ.Reads E w p.1 p.2 := by
    simp [getTypes, hRx, hRy]
  have hty : ∀ p ∈ (Γ.getTypes (.pair a b)).zip [x, y], Γ.HasTy p.1 p.2 := by
    simp [getTypes, hx, hy]
  have hclass := deserializeClass_yields rfl htriv rfl hR hty hfuel old s
  rw [serializeOne, if_neg (by simp [htriv]), Settles]
  exact hclass

/-- The entries of a map of trivially serializable pairs are images of pairs. -/
theorem serializeAll_pair_length {es : List (Val × Val)} (htk : ∀ e ∈ es, Γ.HasTy k e.1)
    (htm : ∀ e ∈ es, Γ.HasTy m e.2) (htriv : Γ.isTrivialSerializable (.pair k m) = true) :
    (Γ.serializeAll w (.pair k m) (es.map fun e => .entry e.1 e.2)).length =
      es.length * Γ.sizeof (.pair k m) := by
  have hboth : Γ.isTrivialSerializable k = true ∧ Γ.isTrivialSerializable m = true := by
    simpa using htriv
  induction es with
  | nil => simp [serializeAll]
  | cons e es ih =>
    obtain ⟨x, hx, hxlen⟩ := (htk e List.mem_cons_self).exists_repr hboth.1
    obtain ⟨y, hy, hylen⟩ := (htm e List.mem_cons_self).exists_repr hboth.2
    have ih := ih (fun d hd => htk d (List.mem_cons_of_mem _ hd))
      fun d hd => htm d (List.mem_cons_of_mem _ hd)
    rw [List.map_cons, serializeAll, List.length_append, ih, Val.entry, serializeOne,
      if_pos htriv, hx, hy]
    simp only [List.getD_cons_zero, List.getD_cons_succ, Val.repr_bytes, List.length_cons]
    rw [pairImage_length hxlen hylen, Nat.succ_mul, Nat.add_comm]

/-- The entries of a map that is not empty. -/
theorem deserializeEntries_yields {es : List (Val × Val)} (kind : AssociativeKind)
    (hk : ∀ e ∈ es, Γ.Reads E w k e.1) (hm : ∀ e ∈ es, Γ.Reads E w m e.2)
    (htk : ∀ e ∈ es, Γ.HasTy k e.1) (htm : ∀ e ∈ es, Γ.HasTy m e.2)
    (hkeys : es.Pairwise fun d e => Γ.precedes kind k d.1 e.1 = true) (hsplit : Γ.PairSplits k m)
    (hE : ¬ E) (hfuel : Val.heightAll (es.map fun e => .entry e.1 e.2) ≤ fuel) (old : Val)
    (s : Bytes) :
    (Γ.deserializeEntries (Γ.deserializeOne fuel w) true kind k m old es.length
      (Γ.serializeAll w (.pair k m) (es.map fun e => .entry e.1 e.2) ++ s)).Yields E
      (Γ.Settles (.map kind k m) old (.list (es.map fun e => .entry e.1 e.2)))
      (.list (es.map fun e => .entry e.1 e.2)) s := by
  rw [deserializeEntries, if_pos rfl, Settles]
  refine Outcome.yields_of_eq_done (fun h => ?_) hE
  obtain ⟨hempty, hsettles⟩ := h
  have hold : (if Γ.hasOrderRecord kind k m then enterOrderRecord old.items else old.items) =
      ([] : List (Val × Val)).map fun e => .entry e.1 e.2 := by
    rw [hempty]
    split <;> rfl
  dsimp only
  rw [hold, deserializeMap_eq_done hk hm htk htm hsplit hfuel hsettles _ (by simpa using hkeys),
    Outcome.map_done, List.nil_append]

end Containers

end TypeEnv

end Yalantinglibs.StructPack
