import Yalantinglibs.StructPack.ReadContainers

/-!
# The payload round trip

Every value whose lengths fit is read back as it was written, if the reader takes apart what
the writer put together and the destination settles. It does for a `map` whose pair is
written without padding, not otherwise; and a member that `T{}` initialises with something
else than an empty value may stay.

## Main definitions

* `TypeEnv.Readable` — the conditions on a value and on the values inside it
* `TypeEnv.RoundTrips` — the payload of a value is read back into `T{}`

## Main results

* `reads_of_hasTy` — the payload of every readable value is read back
-/

set_option autoImplicit false

namespace Yalantinglibs.StructPack

open ByteCodec Decoding

namespace TypeEnv

variable (Γ : TypeEnv)

section Types

variable {Γ} {E P : Prop} {w : ℕ} {t : Ty} {v : Val}

/-- An object that is left as it is. -/
private theorem yields_untouched {old : Val} {s : Bytes} :
    (.done old s : Decoded Val).Yields E (old = v) v s :=
  Outcome.yields_done id fun _ => id

/-- What reading a value back asks of the value and of all values inside it: there are no
`compatible` members, the lengths fit, the reader takes apart what the writer put together and,
for a condition on the destination that is exact, there are no keys. -/
structure Readable (Γ : TypeEnv) (E : Prop) (w : ℕ) (t : Ty) (v : Val) : Prop where
  noCompatible : Γ.NoCompatible t v
  fits : Γ.FitsWidth w t v
  written : Γ.ReadAsWritten t v
  noKeys : E → Γ.NoKeys t v

theorem Readable.part {u : Ty} {x : Val} (h : Readable Γ E w t v) (hu : (u, x) ∈ Γ.parts (t, v)) :
    Readable Γ E w u x :=
  ⟨h.noCompatible.part hu, h.fits.part hu, h.written.part hu, fun he => (h.noKeys he).part hu⟩

/-- One level of `deserialize_one`. -/
private theorem reads_of_step (h : ∀ fuel : ℕ, v.height ≤ fuel + 1 → ∀ (old : Val) (s : Bytes),
      (Γ.deserializeStep (Γ.deserializeOne fuel w) w true SpConfig.DEFAULT t old
        (Γ.serializeOne w SpConfig.DEFAULT t v ++ s)).Yields E (Γ.Settles t old v) v s) :
    Γ.Reads E w t v := by
  intro fuel hfuel old s
  obtain ⟨fuel, rfl⟩ := Nat.exists_eq_succ_of_ne_zero (v.height_pos.trans_le hfuel).ne'
  exact h fuel hfuel old s

private theorem height_list_le {xs : List Val} {fuel : ℕ} :
    (Val.list xs).height ≤ fuel + 1 ↔ Val.heightAll xs ≤ fuel := by
  rw [Val.height]
  omega

/-- The payload of every readable value is read back. -/
theorem reads_of_hasTy (h : Γ.HasTy t v) (hr : Readable Γ E w t v) : Γ.Reads E w t v := by
  induction h with
  | fundamental k b hlen =>
    refine reads_of_step fun fuel hfuel old s => ?_
    simp only [serializeOne, deserializeStep, varintForm_default_fundamental, Val.repr_bytes,
      readImage_append hlen, Settles, if_true]
    exact Outcome.yields_done (fun _ => rfl) fun _ _ => trivial
  | enumeration n k b hlen =>
    refine reads_of_step fun fuel hfuel old s => ?_
    simp only [serializeOne, deserializeStep, Val.repr_bytes, readImage_append hlen, Settles,
      if_true]
    exact Outcome.yields_done (fun _ => rfl) fun _ _ => trivial
  | varInt k b hlen =>
    refine reads_of_step fun fuel hfuel old s => ?_
    have hx : Γ.HasTy (.varInt k) (.bytes b) := .varInt k b hlen
    obtain ⟨f, hf⟩ : ∃ f, varintForm SpConfig.DEFAULT (.varInt k) = some f := by
      cases k <;> exact ⟨_, rfl⟩
    have hread := deserializeOne_varint (w := w) hf hx hfuel old s
    rw [deserializeOne] at hread
    rw [hread, isEnableFastVarintCoding_default, if_neg Bool.false_ne_true, Settles]
    · exact Outcome.yields_done (fun _ => rfl) fun _ _ => trivial
    all_goals intros; contradiction
  | monostate =>
    refine reads_of_step fun fuel hfuel old s => ?_
    simp only [serializeOne, deserializeStep, Settles, List.nil_append]
    exact yields_untouched
  | image t b hagg htriv hlen =>
    refine reads_of_step fun fuel hfuel old s => ?_
    have hread : Γ.deserializeStep (Γ.deserializeOne fuel w) w true SpConfig.DEFAULT t old =
        readImage true (Γ.sizeof t) old := by
      funext bs
      cases t <;> simp_all [isAggregate, deserializeStep, deserializeClass]
    have hwritten : Γ.serializeOne w SpConfig.DEFAULT t (.bytes b) = b := by
      cases t <;> simp_all [isAggregate, serializeOne]
    have hsettles : Γ.Settles t old (.bytes b) := by
      cases t <;> simp_all [isAggregate, Settles]
    rw [hread, hwritten, readImage_append hlen]
    exact Outcome.yields_done (fun _ => rfl) fun _ _ => hsettles
  | trivialView t b htriv hlen =>
    refine reads_of_step fun fuel hfuel old s => ?_
    have hmono : t ≠ .monostate := by
      rintro rfl
      exact hr.written.self
    have hwritten : serializeTrivial t b = b := by
      cases t <;> first | rfl | exact absurd rfl hmono
    simp only [serializeOne, deserializeStep, Settles, Val.repr_bytes, hwritten,
      readImage_append hlen, if_true]
    exact Outcome.yields_done (fun _ => rfl) fun _ _ => trivial
  | container kind t xs hlen hxs ih =>
    refine reads_of_step fun fuel hfuel old s => ?_
    have hR : ∀ x ∈ xs, Γ.Reads E w t x := fun x hx => ih x hx (hr.part (by simp [parts, hx]))
    have hfits : xs.length < 256 ^ w := hr.fits.self rfl
    rw [serializeOne, deserializeStep, List.append_assoc, withLength_append hfits]
    split <;> rename_i hempty
    · obtain rfl := List.eq_nil_of_length_eq_zero hempty
      simpa [Settles, SettlesNew, serializeAll] using yields_untouched (v := .list [])
    · exact deserializeElements_yields kind (List.ne_nil_of_length_pos (Nat.pos_of_ne_zero hempty))
        hR hxs (height_list_le.mp hfuel) old s
  | set kind t xs hlen hkeys hxs ih =>
    refine reads_of_step fun fuel hfuel old s => ?_
    have hR : ∀ x ∈ xs, Γ.Reads E w t x := fun x hx => ih x hx (hr.part (by simp [parts, hx]))
    have hfits : xs.length < 256 ^ w := hr.fits.self rfl
    rw [serializeOne, deserializeStep, List.append_assoc, withLength_append hfits]
    split <;> rename_i hempty
    · obtain rfl := List.eq_nil_of_length_eq_zero hempty
      simpa [Settles, SettlesKeys, serializeAll] using yields_untouched (v := .list [])
    · have hne : xs ≠ [] := List.ne_nil_of_length_pos (Nat.pos_of_ne_zero hempty)
      exact deserializeKeys_yields kind hne hR hkeys (fun he => hne (hr.noKeys he).self)
        (height_list_le.mp hfuel) old s
  | map kind k m es hlen hkeys hk hm ihk ihm =>
    refine reads_of_step fun fuel hfuel old s => ?_
    have hRk : ∀ e ∈ es, Γ.Reads E w k e.1 := fun e he =>
      ihk e he (hr.part (List.mem_flatMap.mpr ⟨_, List.mem_map_of_mem he, by simp [entryKey, Val.entry]⟩))
    have hRm : ∀ e ∈ es, Γ.Reads E w m e.2 := fun e he =>
      ihm e he (hr.part (List.mem_flatMap.mpr ⟨_, List.mem_map_of_mem he, by simp [entryMapped, Val.entry]⟩))
    have hfits : es.length < 256 ^ w := by simpa using hr.fits.self rfl
    rw [serializeOne, deserializeStep, List.append_assoc, List.length_map, withLength_append hfits]
    split <;> rename_i hempty
    · obtain rfl := List.eq_nil_of_length_eq_zero hempty
      simpa [Settles, SettlesEntries, serializeAll] using yields_untouched (v := .list [])
    · have hne : es ≠ [] := List.ne_nil_of_length_pos (Nat.pos_of_ne_zero hempty)
      have hnil : (es.map fun e => Val.entry e.1 e.2) ≠ [] := by simpa using hne
      exact deserializeEntries_yields kind hRk hRm hk hm hkeys (hr.written.self hnil)
        (fun he => hnil (hr.noKeys he).self) (height_list_le.mp hfuel) old s
  | array t n xs htriv hlen hxs ih =>
    refine reads_of_step fun fuel hfuel old s => ?_
    subst hlen
    have hR : ∀ x ∈ xs, Γ.Reads E w t x := fun x hx => ih x hx (hr.part (by simp [parts, hx]))
    rw [serializeOne, deserializeStep, isTrivialSerializable_array, htriv,
      if_neg Bool.false_ne_true, Settles]
    exact (each_yields_serializeAll hR hxs (height_list_le.mp hfuel) _ s).map Val.list_injective
  | nullopt t | nullptr t | noObject base =>
    refine reads_of_step fun fuel hfuel old s => ?_
    rw [serializeOne, deserializeStep, Settles]
    exact yields_untouched
  | optional t v hv ih | uniquePtr t v hv ih =>
    refine reads_of_step fun fuel hfuel old s => ?_
    have hR := ih (hr.part (by simp [parts]))
    rw [Val.height, Nat.add_comm, Nat.add_le_add_iff_right] at hfuel
    rw [serializeOne, Settles, deserializeStep, List.cons_append, withBytes_cons]
    exact ((hR fuel hfuel _ s).map Val.engaged_injective).dropCode
  | derived base i t v hfound hv ih =>
    refine reads_of_step fun fuel hfuel old s => ?_
    have hdispatch := Γ.dispatch_of_searchDerived hfound
    have hR := ih (hr.part (by simp [parts, hdispatch]))
    rw [Val.height, Nat.add_comm, Nat.add_le_add_iff_right] at hfuel
    simp only [serializeOne, Settles, hdispatch, deserializeStep, List.cons_append, withBytes_cons,
      List.append_assoc, readId_append]
    simp only [hfound]
    exact (hR fuel hfuel _ s).map (Val.alt_injective i)
  | variant ts i t v hcount hi hv ih =>
    refine reads_of_step fun fuel hfuel old s => ?_
    have hR := ih (hr.part (by simp [parts, hi]))
    have hlt : i < 256 := (List.getElem?_eq_some_iff.mp hi).1.trans hcount
    have hindex : ofLE [UInt8.ofNat i] = i := by simp [ofLE, Nat.mod_eq_of_lt hlt]
    rw [Val.height, Nat.add_comm, Nat.add_le_add_iff_right] at hfuel
    rw [serializeOne, Settles, deserializeStep, List.cons_append, withBytes_cons]
    simp only [hindex, hi]
    exact ((hR fuel hfuel _ s).map (Val.alt_injective i)).dropCode
  | error t e v hv ih =>
    refine reads_of_step fun fuel hfuel old s => ?_
    have hR := ih (hr.part (by simp [parts]))
    rw [Val.height, Nat.add_comm, Nat.add_le_add_iff_right] at hfuel
    rw [serializeOne, settles_error, deserializeStep, List.cons_append, withBytes_cons]
    exact ((hR fuel hfuel _ s).map (Val.alt_injective 0)).dropCode
  | value t e v hv ih =>
    refine reads_of_step fun fuel hfuel old s => ?_
    have hR := ih (hr.part (by simp [parts]))
    rw [Val.height, Nat.add_comm, Nat.add_le_add_iff_right] at hfuel
    rw [serializeOne, settles_value, deserializeStep, List.cons_append, withBytes_cons]
    simp only [if_true, show ofLE [1] = 1 from rfl, one_ne_zero, if_false]
    split
    · rename_i o
      refine (((hR fuel hfuel o s).map (Val.alt_injective 1)).dropCode).congr ?_
      simp
    · rename_i hold
      -- the error is thrown
      refine Outcome.yields_throws ?_
      rintro ⟨o, rfl, -⟩
      exact hold o rfl
  | empty t version | compatible t version v =>
    exact absurd hr.noCompatible.self (by simp [Ty.isCompatible])
  | pair a b x y htriv hx hy ihx ihy =>
    exact Reads.pair htriv hx hy (ihx (hr.part (by simp [parts]))) (ihy (hr.part (by simp [parts])))
  | tuple ts xs hlen hxs ih =>
    refine reads_of_step fun fuel hfuel old s => ?_
    have hR : ∀ p ∈ ts.zip xs, Γ.Reads E w p.1 p.2 := fun p hp =>
      ih p hp (hr.part (by simpa [parts] using hp))
    have hmany := each_yields_serializeMany SpConfig.DEFAULT hlen hR hxs
      (height_list_le.mp hfuel) old.items s
    rw [serializeOne, deserializeStep, Settles]
    exact hmany.map Val.list_injective
  | struct name xs htriv hlen hxs ih =>
    refine reads_of_step fun fuel hfuel old s => ?_
    have hR : ∀ p ∈ (Γ.fields name).zip xs, Γ.Reads E w p.1 p.2 := fun p hp =>
      ih p hp (hr.part (by simpa [parts] using hp))
    rw [serializeOne, deserializeStep, Settles]
    exact deserializeClass_yields rfl htriv hlen hR hxs (height_list_le.mp hfuel) old s

end Types

/-! ### Into `T{}` -/

/-- The payload of `x`, whatever follows it, is read into `T{}` as `x` and consumed exactly. -/
def RoundTrips (w : ℕ) (t : Ty) (x : Val) : Prop :=
  ∀ (fuel : ℕ), x.height ≤ fuel → ∀ s : Bytes,
    Γ.deserializeOne fuel w true SpConfig.DEFAULT t (Γ.fresh t)
      (Γ.serializeOne w SpConfig.DEFAULT t x ++ s) = .done x s

section RoundTrips

variable {Γ} {w : ℕ} {t k m : Ty} {x : Val}

theorem withBytes_takes {α : Type} (n : ℕ) (item : α) (bs : Bytes) (f : Bytes → α) :
    (withBytes n item bs fun b rest => .done (f b) rest).Takes .noBufferSpace n bs := by
  rw [withBytes, read]
  by_cases hn : bs.length < n
  · rw [if_pos hn]
    exact .inr ⟨hn, item, bs, rfl⟩
  · rw [if_neg hn]
    exact .inl ⟨Nat.not_lt.mp hn, _, rfl⟩

/-- A trivially serializable object takes as many bytes from the buffer as it has. -/
theorem deserializeOne_takes (fuel : ℕ) (notSkip : Bool)
    (htriv : Γ.isTrivialSerializable t = true) (old : Val) (bs : Bytes) :
    (Γ.deserializeOne (fuel + 1) w notSkip SpConfig.DEFAULT t old bs).Takes .noBufferSpace
      (Γ.calculateTrivialSize t).total bs := by
  have hread : ∀ n, (readImage notSkip n old bs).Takes .noBufferSpace n bs := fun n =>
    withBytes_takes n old bs _
  rw [deserializeOne]
  cases t with
  | monostate => exact Outcome.takes_zero _ old bs
  | fundamental k | enumeration _ k => exact hread k.size
  | array t n =>
    rw [deserializeStep, if_pos htriv]
    exact hread _
  | pair a b =>
    rw [deserializeStep, deserializeClass, if_pos htriv]
    exact hread _
  | struct name =>
    rw [deserializeStep, deserializeClass, if_pos htriv]
    exact hread _
  | _ => simp [isTrivialSerializable, isTrivialSerializableIn] at htriv

/-- So do the entries of a map of such objects, key and mapped value without padding. -/
theorem deserializeMap_takes (hk : Γ.isTrivialSerializable k = true)
    (hm : Γ.isTrivialSerializable m = true) (fuel n : ℕ) (fill : MapFilling) (value : Val)
    (acc : List Val) (bs : Bytes) :
    (deserializeMap (Γ.deserializeOne (fuel + 1) w true SpConfig.DEFAULT k (Γ.fresh k))
      (Γ.deserializeOne (fuel + 1) w true SpConfig.DEFAULT m (Γ.fresh m))
      (Γ.deserializeOne (fuel + 1) w false SpConfig.DEFAULT m) fill n value acc bs).Takes
      .noBufferSpace
      (n * ((Γ.calculateTrivialSize k).total + (Γ.calculateTrivialSize m).total)) bs := by
  induction n generalizing value acc bs with
  | zero =>
    rw [Nat.zero_mul]
    exact Outcome.takes_zero _ acc bs
  | succ n ih =>
    rw [Nat.succ_mul, Nat.add_comm (n * _), Nat.add_assoc, deserializeMap]
    refine (deserializeOne_takes fuel true hk _ bs).andThen _ fun key => ?_
    split
    · exact (deserializeOne_takes fuel false hm value _).andThen _ fun value => ih _ _ _
    · exact (deserializeOne_takes fuel true hm _ _).andThen _ fun mapped => ih _ _ _

/-- A map whose pair is padded does not round trip, unless it is empty: the reader passes over
the key and the mapped value of an entry, and leaves the padding behind it. -/
theorem not_roundTrips_map {kind : AssociativeKind} {es : List (Val × Val)} (hne : es ≠ [])
    (htk : ∀ e ∈ es, Γ.HasTy k e.1) (htm : ∀ e ∈ es, Γ.HasTy m e.2) (hfits : es.length < 256 ^ w)
    (htriv : Γ.isTrivialSerializable (.pair k m) = true) (hsplit : ¬ Γ.PairSplits k m) :
    ¬ Γ.RoundTrips w (.map kind k m) (.list (es.map fun e => .entry e.1 e.2)) := by
  intro h
  have hboth : Γ.isTrivialSerializable k = true ∧ Γ.isTrivialSerializable m = true := by
    simpa using htriv
  rw [PairSplits, if_pos htriv] at hsplit
  generalize hsum : (Γ.calculateTrivialSize k).total + (Γ.calculateTrivialSize m).total = size
    at hsplit
  -- a buffer that is long enough for the reader
  let s : Bytes := List.replicate (es.length * size) 0
  have hdone := h ((Val.list (es.map fun e => .entry e.1 e.2)).height + 2) (by omega) s
  have hlen := serializeAll_pair_length (w := w) htk htm htriv
  have hempty : es.length ≠ 0 := fun h0 => hne (List.eq_nil_of_length_eq_zero h0)
  obtain ⟨ys, hys⟩ := (deserializeMap_takes (w := w) hboth.1 hboth.2
    (Val.list (es.map fun e => .entry e.1 e.2)).height es.length (Γ.mapFilling kind k m)
    (Γ.fresh m) (if Γ.hasOrderRecord kind k m then enterOrderRecord [] else [])
    (Γ.serializeAll w (.pair k m) (es.map fun e => .entry e.1 e.2) ++ s)).exists_done
    (by simp [s, hsum])
  rw [serializeOne, deserializeOne, deserializeStep, List.append_assoc, List.length_map,
    withLength_append hfits, if_neg hempty, deserializeEntries, if_pos rfl] at hdone
  simp only [fresh, Val.items_list] at hdone
  rw [hys, Outcome.map_done] at hdone
  have hrest := congrArg List.length (Outcome.done.inj hdone).2
  rw [List.length_drop, List.length_append, hlen, hsum] at hrest
  have hmul : es.length * Γ.sizeof (.pair k m) = es.length * size := by
    have hs : s.length = es.length * size := List.length_replicate
    omega
  exact hsplit (Nat.eq_of_mul_eq_mul_left (Nat.pos_of_ne_zero hempty) hmul)

/-- Without `compatible` members, a value that is read as it is written round trips if `T{}`
settles, and, where it has no keys, only then. -/
theorem roundTrips_of_settles (h : Γ.HasTy t x) (hc : Γ.NoCompatible t x)
    (hfits : Γ.FitsWidth w t x) (hwritten : Γ.ReadAsWritten t x) :
    (Γ.Settles t (Γ.fresh t) x → Γ.RoundTrips w t x) ∧
      (Γ.NoKeys t x → Γ.RoundTrips w t x → Γ.Settles t (Γ.fresh t) x) := by
  constructor
  · intro hsettles fuel hfuel s
    exact (reads_of_hasTy (E := False) h ⟨hc, hfits, hwritten, False.elim⟩).eq_done hfuel hsettles s
  · intro hkeys hround
    have hR := reads_of_hasTy (E := True) h ⟨hc, hfits, hwritten, fun _ => hkeys⟩
    exact (hR x.height le_rfl (Γ.fresh t) []).of_eq_done trivial (hround x.height le_rfl [])

end RoundTrips

/-- `std::map<int8_t, int32_t>`. -/
def mapOfInt8 : Ty := .map ⟨false, false⟩ (.fundamental .int8) (.fundamental .int32)

/-- The map `{1 ↦ 2}`. -/
def oneToTwo : Val := .list [.entry (.bytes [1]) (.bytes [2, 0, 0, 0])]

/-- The entry is written with three bytes between key and mapped value. -/
theorem not_roundTrips_oneToTwo :
    plain.HasTy mapOfInt8 oneToTwo ∧ plain.existCompatibleMember mapOfInt8 = false ∧
      plain.FitsWidth 1 mapOfInt8 oneToTwo ∧ ¬ plain.RoundTrips 1 mapOfInt8 oneToTwo := by
  have hkey : ∀ e ∈ [(Val.bytes [1], Val.bytes [2, 0, 0, 0])],
      plain.HasTy (.fundamental .int8) e.1 := by
    simpa using .fundamental .int8 [1] rfl
  have hmapped : ∀ e ∈ [(Val.bytes [1], Val.bytes [2, 0, 0, 0])],
      plain.HasTy (.fundamental .int32) e.2 := by
    simpa using .fundamental .int32 [2, 0, 0, 0] rfl
  refine ⟨.map _ _ _ _ (by decide) (by simp) hkey hmapped, by decide +kernel, by decide +kernel, ?_⟩
  exact not_roundTrips_map (List.cons_ne_nil _ _) hkey hmapped (by decide) (by decide +kernel)
    (by decide +kernel)

/-- A base class of an `int32_t` with one derived class, which adds a `std::string`. -/
def shapes : TypeEnv :=
  { plain with
    structs :=
      [{ fields := [.fundamental .int32], init := .bytes [0, 0, 0, 0], derived := [1] },
       { fields := [.fundamental .int32, .container .string (.fundamental .char8)]
         init := .list [.bytes [0, 0, 0, 0], .list []] }] }

/-- A tuple of a map of vectors of optionals, a set, a pointer to the base class and a variant. -/
def tupleOfFour : Ty :=
  .tuple
    [.map ⟨false, false⟩ (.fundamental .int32) (.container .vector (.optional (.fundamental .int32))),
      .set ⟨false, true⟩ (.fundamental .int8), .polymorphic 0,
      .variant [.fundamental .int32, .container .string (.fundamental .char8)]]

/-- The map `{1 ↦ {5, nullopt}, 2 ↦ {}}`, the set `{9, 8}`, an object `{7, "a"}` of the derived
class and the string `"b"`. -/
def fourValues : Val :=
  .list
    [.list [.entry (.bytes [1, 0, 0, 0]) (.list [.engaged (.bytes [5, 0, 0, 0]), .null]),
        .entry (.bytes [2, 0, 0, 0]) (.list [])],
      .list [.bytes [9], .bytes [8]], .alt 0 (.list [.bytes [7, 0, 0, 0], .list [.bytes [97]]]),
      .alt 1 (.list [.bytes [98]])]

theorem searchDerived_shapes :
    shapes.searchDerived 0 (shapes.getStructPackId (.struct 1)) = some (0, .struct 1) :=
  shapes.searchDerived_of_nodup (List.nodup_singleton _) rfl

theorem hasTy_fourValues : shapes.HasTy tupleOfFour fourValues := by
  have hint : ∀ b : Bytes, b.length = 4 → shapes.HasTy (.fundamental .int32) (.bytes b) :=
    .fundamental .int32
  have hstring : ∀ c : UInt8, shapes.HasTy (.container .string (.fundamental .char8))
      (.list [.bytes [c]]) := fun c =>
    .container _ _ _ (by simp) (by simpa using .fundamental .char8 [c] rfl)
  have hmap : shapes.HasTy (.map ⟨false, false⟩ (.fundamental .int32)
      (.container .vector (.optional (.fundamental .int32))))
      (.list [.entry (.bytes [1, 0, 0, 0]) (.list [.engaged (.bytes [5, 0, 0, 0]), .null]),
        .entry (.bytes [2, 0, 0, 0]) (.list [])]) := by
    refine .map _ _ _ [(.bytes [1, 0, 0, 0], .list [.engaged (.bytes [5, 0, 0, 0]), .null]),
      (.bytes [2, 0, 0, 0], .list [])] (by decide) ?_ ?_ ?_
    · simp [precedes, shapes, plain, ofLE]
    · simpa using ⟨hint _ rfl, hint _ rfl⟩
    · simpa using ⟨.container _ _ _ (by decide) (by simpa using ⟨.optional _ _ (hint _ rfl), .nullopt _⟩),
        .container _ _ _ (by decide) (by simp)⟩
  have hset : shapes.HasTy (.set
      ⟨false, true⟩ (.fundamental .int8)) (.list [.bytes [9], .bytes [8]]) :=
    .set _ _ _ (by decide) (by simp [precedes, shapes, plain])
      (by simpa using ⟨.fundamental .int8 [9] rfl, .fundamental .int8 [8] rfl⟩)
  have hobject : shapes.HasTy (.struct 1) (.list [.bytes [7, 0, 0, 0], .list [.bytes [97]]]) := by
    apply HasTy.struct 1 _ (by decide +kernel) rfl
    simpa [shapes, fields] using ⟨hint _ rfl, hstring 97⟩
  apply HasTy.tuple _ _ rfl
  simpa using ⟨hmap, hset, .derived 0 0 _ _ searchDerived_shapes hobject,
    .variant _ 1 _ _ (by decide) rfl (hstring 98)⟩

/-- They are read back into an empty map, an empty set, no object and the number `0`. -/
theorem roundTrips_fourValues : shapes.RoundTrips 1 tupleOfFour fourValues := by
  have hdispatch := shapes.dispatch_of_searchDerived searchDerived_shapes
  have hfields : shapes.fields 1 =
    [.fundamental .int32, .container .string (.fundamental .char8)] := rfl
  have hparts : ∀ P : Ty → Val → Prop,
      (∀ p ∈ shapes.within 6 (tupleOfFour, fourValues), P p.1 p.2) →
      shapes.Everywhere P tupleOfFour fourValues := fun P h p hp =>
    h p ((mem_within_iff (by decide)).mpr hp)
  have hsplit : shapes.PairSplits (.fundamental .int32)
      (.container .vector (.optional (.fundamental .int32))) := by decide +kernel
  have htag : isEnableFastVarintCoding (shapes.memberTag (.struct 1)) = false := by decide +kernel
  refine (roundTrips_of_settles hasTy_fourValues (hparts _ ?_) (hparts _ ?_) (hparts _ ?_)).1 ?_
  · simp [within, parts, hdispatch, hfields, tupleOfFour, fourValues, entryKey, entryMapped,
      Val.entry, Ty.isCompatible]
  · simp [within, parts, hdispatch, hfields, tupleOfFour, fourValues, entryKey, entryMapped,
      Val.entry, isContainer, Val.items]
  · simp [within, parts, hdispatch, hfields, tupleOfFour, fourValues, entryKey, entryMapped,
      Val.entry, readAsWrittenHere, hsplit]
  · simp [Settles, SettlesMany, SettlesEntries, SettlesEntry, SettlesNew, SettlesKeys, hdispatch,
      hfields, htag, tupleOfFour, fourValues, fresh, freshAll, Val.entry, isTriviallyCopyable]

end TypeEnv

end Yalantinglibs.StructPack
