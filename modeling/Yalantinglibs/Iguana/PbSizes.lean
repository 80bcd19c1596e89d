import Yalantinglibs.Iguana.PbRoundTrip
import Mathlib.Logic.Relation

/-!
# What the first pass of struct_pb leaves for the second

Whether as many bytes are written as were counted, and whether each part of a message takes the
sizes that have been recorded for it.

## Main definitions

* `Part` — the values that are written within another
* `Takes` — the sizes that are recorded for a value are taken with it, and no others
* `PassesAgree` — the passes agree on a message and on all that is in it

## Main results

* `passesAgree_sized` — the passes agree where the sizes are found, and below 2^31 bytes only there
-/

set_option autoImplicit false

namespace Yalantinglibs.Iguana.Pb

open ByteCodec Writes Relation

/-- The second pass, started at the sizes that the first one has recorded for something, takes
these and no others, whatever is behind them, and each size that it writes is that of what comes
behind it. -/
def Takes (w : Writes) (size : Sizes) : Prop :=
  ∀ rest, ∃ cs, w (size.2 ++ rest) = some (cs, rest) ∧ AllSound cs

/-- A value behind any key. -/
def ValueTakes (S : Schema) (p : Ty × Val) : Prop :=
  ∀ key omitDefaultVal, key ≠ 0 → Takes (toPbImpl S p.2 p.1 key omitDefaultVal)
    (pbKeyValueSize S p.2 p.1 (variantUint32SizeConstexpr key) omitDefaultVal)

/-- The values that are written within another; an entry of a map is a map of its own. -/
inductive Part (S : Schema) : Ty × Val → Ty × Val → Prop
  | field (id : ℕ) (vs : List Val) (p : Member × Val) (f : Field)
      (hp : p ∈ (S.message id).members.zip vs) (hf : p.1.field p.2 = some f) :
      Part S (f.ty, f.val) (.message id, .list vs)
  | item (t : Ty) (vs : List Val) (v : Val) (hv : v ∈ vs) : Part S (t, v) (.sequence t, .list vs)
  | entry (k m : Ty) (es : List Val) (x y : Val) (he : .pair x y ∈ es) :
      Part S (.map k m, .list [.pair x y]) (.map k m, .list es)
  | key (k m : Ty) (es : List Val) (x y : Val) (he : .pair x y ∈ es) :
      Part S (k, x) (.map k m, .list es)
  | mapped (k m : Ty) (es : List Val) (x y : Val) (he : .pair x y ∈ es) :
      Part S (m, y) (.map k m, .list es)
  | some (t : Ty) (v : Val) : Part S (t, v) (.optional t, .some v)

/-- `to_pb` writes as many bytes as `pb_key_value_size` counts, with all the sizes that it
records, each size that is written is that of what comes behind it, and each part of the message
takes the sizes that have been recorded for it. -/
structure PassesAgree (S : Schema) (id : ℕ) (vs : List Val) : Prop where
  written : ∃ cs, toPbMembers S vs (S.message id).members
        (membersSize S vs (S.message id).members).2 = some (cs, []) ∧
      (bytesOf cs).length = (membersSize S vs (S.message id).members).1.toNat ∧ AllSound cs
  taken : ∀ p, TransGen (Part S) p (.message id, .list vs) → ValueTakes S p

section Sufficient

variable {S : Schema}

theorem Agrees.takes {w : Writes} {size : Sizes} {b : Bytes} (h : Agrees w size b) :
    Takes w size := by
  obtain ⟨cs, -, hsound, hw⟩ := h.writes
  exact fun rest => ⟨cs, hw rest, hsound⟩

theorem accepted_of_sequence {t : Ty} (h : (Ty.sequence t).accepted = true) :
    t.accepted = true := by
  simp only [Ty.accepted, Bool.and_eq_true] at h
  exact h.1

theorem mem_of_pair {es : List (Val × Val)} {x y : Val}
    (h : .pair x y ∈ es.map fun e => Val.pair e.1 e.2) : (x, y) ∈ es := by
  obtain ⟨e, he, hxy⟩ := List.mem_map.mp h
  obtain ⟨rfl, rfl⟩ := Val.pair.inj hxy
  exact he

/-- The keys and the mapped values of a map. -/
theorem hasTy_of_pair {k m : Ty} {es : List Val} {x y : Val}
    (hv : S.HasTy (.map k m) (.list es)) (he : .pair x y ∈ es) :
    S.HasTy k x ∧ S.HasTy m y ∧ S.HasTy (.map k m) (.list [.pair x y]) := by
  cases hv with
  | map _ _ es hk hm _ =>
    have hmem := mem_of_pair he
    refine ⟨hk _ hmem, hm _ hmem, .map k m [(x, y)] ?_ ?_ (List.nodup_singleton _)⟩
    · exact fun e hone => List.mem_singleton.mp hone ▸ hk _ hmem
    · exact fun e hone => List.mem_singleton.mp hone ▸ hm _ hmem

/-- A map with one entry. -/
theorem sized_entry {k m : Ty} {x y : Val} {nested : Bool} (hk : Sized S true k x)
    (hm : Sized S true m y) (hlen : SizeKept (entryBytes S k m x y).length)
    (hmapped : MappedSized S m y) : Sized S nested (.map k m) (.list [.pair x y]) := by
  have hone : ∀ {x' y' : Val}, .pair x' y' ∈ [Val.pair x y] → x' = x ∧ y' = y :=
    fun h => Val.pair.inj (List.mem_singleton.mp h)
  refine .map _ _ _ _ (fun _ _ h => ?_) (fun _ _ h => ?_) (fun _ _ h => ?_) fun _ _ h => ?_
  all_goals obtain ⟨rfl, rfl⟩ := hone h
  · exact hk
  · exact hm
  · exact hlen
  · exact hmapped

/-- The sizes of the parts of a value are found with its own. -/
theorem Part.sized (hS : S.Valid) {p q : Ty × Val} (h : Part S p q) {nested : Bool}
    (hq : S.HasTy q.1 q.2) (ht : q.1.accepted = true) (hs : Sized S nested q.1 q.2) :
    S.HasTy p.1 p.2 ∧ p.1.accepted = true ∧ Sized S true p.1 p.2 := by
  cases h with
  | field id vs p f hp hf =>
    cases hq with
    | message _ _ _ _ hval =>
      cases hs with
      | message _ _ _ _ hsized _ => exact ⟨hval p hp f hf, (hS.of_field hp hf).2, hsized p hp f hf⟩
  | item t vs v hv =>
    cases hq with
    | sequence _ _ hvs =>
      cases hs with
      | sequence _ _ _ _ hsized => exact ⟨hvs v hv, accepted_of_sequence ht, hsized v hv⟩
  | entry k m es x y he =>
    cases hs with
    | map _ _ _ _ hk hm hlen hmapped =>
      exact ⟨(hasTy_of_pair hq he).2.2, ht,
        sized_entry (hk x y he) (hm x y he) (hlen x y he) (hmapped x y he)⟩
  | key k m es x y he =>
    cases hs with
    | map _ _ _ _ hk => exact ⟨(hasTy_of_pair hq he).1, (accepted_of_map ht).1, hk x y he⟩
  | mapped k m es x y he =>
    cases hs with
    | map _ _ _ _ _ hm => exact ⟨(hasTy_of_pair hq he).2.1, (accepted_of_map ht).2, hm x y he⟩
  | some t v =>
    cases hq with
    | some _ _ hv =>
      cases hs with
      | some _ _ _ hsized => exact ⟨hv, ht, hsized⟩

/-- The passes agree where the sizes are found. -/
theorem passesAgree_of_sized (hS : S.Valid) {id : ℕ} {vs : List Val}
    (hv : S.HasTy (.message id) (.list vs)) (hs : Sized S false (.message id) (.list vs))
    (hlen : (membersBytes S vs (S.message id).members).length < 2 ^ 64) :
    PassesAgree S id vs where
  written := by
    have hagrees := agrees_top hS hv hs
    obtain ⟨cs, hcs, hsound, hw⟩ := hagrees.writes
    have hrun := hw []
    rw [List.append_nil] at hrun
    refine ⟨cs, hrun, ?_, hsound⟩
    rw [hcs, hagrees.size_eq, toNat_ofNat_of_lt hlen]
  taken p hp := by
    obtain ⟨q, hpq, hq⟩ := TransGen.tail'_iff.mp hp
    have hpart : S.HasTy p.1 p.2 ∧ p.1.accepted = true ∧ Sized S true p.1 p.2 := by
      induction hpq using ReflTransGen.head_induction_on with
      | refl => exact hq.sized hS hv rfl hs
      | head hstep hrest ih =>
        obtain ⟨hty, haccepted, hsized⟩ := ih (.tail' hrest hq)
        exact hstep.sized hS hty haccepted hsized
    intro key omitDefaultVal hkey
    exact ((agrees_of_sized hS hpart.1 hpart.2.1 hpart.2.2).agrees key omitDefaultVal hkey).takes

end Sufficient

/-! ### Sizes that are recorded -/

section Recorded

variable {S : Schema}

/-- A size that is recorded for the members of a message is smaller than all of them. -/
theorem toNat_lt_of_mem_members {ms : List Member} {vs : List Val}
    (h : ∀ p ∈ ms.zip vs, ∀ f, p.1.field p.2 = some f →
      ∀ n ∈ (f.size S).2, n.toNat < (f.bytes S).length) :
    ∀ n ∈ (membersSize S vs ms).2, n.toNat < (membersBytes S vs ms).length := by
  induction ms generalizing vs with
  | nil =>
    intro n hn
    cases vs <;> exact absurd hn List.not_mem_nil
  | cons m ms ih =>
    cases vs with
    | nil => exact fun n hn => absurd hn List.not_mem_nil
    | cons v vs =>
      intro n hn
      rw [membersSize_cons, Sizes.add, List.mem_append] at hn
      rw [membersBytes_cons, List.length_append]
      rcases hn with hn | hn
      · cases hf : m.field v with
        | none =>
          rw [hf] at hn
          exact absurd hn List.not_mem_nil
        | some f =>
          rw [hf] at hn
          exact (h (m, v) List.mem_cons_self f hf n hn).trans_le (Nat.le_add_right _ _)
      · exact (ih (fun p hp => h p (List.mem_cons_of_mem _ hp)) n hn).trans_le
          (Nat.le_add_left _ _)

theorem Field.size_snd (f : Field) : (f.size S).2 =
    (pbKeyValueSize S f.val f.ty (variantUint32SizeConstexpr f.key) f.omitDefaultVal).2 := by
  rw [Field.size]
  split_ifs <;> rfl

/-- The sizes that are recorded for the members of a message. -/
theorem toNat_lt_of_mem_message {id : ℕ} {vs : List Val}
    (h : ∀ p ∈ (S.message id).members.zip vs, ∀ f, p.1.field p.2 = some f →
      ∀ key keySize omitDefaultVal, ∀ n ∈ (pbKeyValueSize S f.val f.ty keySize omitDefaultVal).2,
        n.toNat < (tagged key (payloads S f.val f.ty omitDefaultVal)).length) :
    ∀ n ∈ (membersSize S vs (S.message id).members).2,
      n.toNat < (membersBytes S vs (S.message id).members).length :=
  toNat_lt_of_mem_members fun p hp f hf n hn => by
    rw [Field.size_snd] at hn
    exact h p hp f hf _ _ _ n hn

theorem toNat_lt_of_mem_items {t : Ty} {vs : List Val} {key keySize : ℕ}
    (h : ∀ v ∈ vs, ∀ n ∈ (pbKeyValueSize S v t keySize false).2,
      n.toNat < (tagged key (payloads S v t false)).length) :
    ∀ n ∈ (itemsSize S vs t keySize).2, n.toNat < (tagged key (itemsPayloads S vs t)).length := by
  induction vs with
  | nil => exact fun n hn => absurd hn List.not_mem_nil
  | cons v vs ih =>
    intro n hn
    rw [itemsSize, Sizes.add, List.mem_append] at hn
    rw [itemsPayloads, tagged_append, List.length_append]
    rcases hn with hn | hn
    · exact (h v List.mem_cons_self n hn).trans_le (Nat.le_add_right _ _)
    · exact (ih (fun w hw => h w (List.mem_cons_of_mem _ hw)) n hn).trans_le (Nat.le_add_left _ _)

theorem entryBytes_length_lt (k m : Ty) (x y : Val) (key : ℕ) :
    (entryBytes S k m x y).length <
      (serializeVarintU32 key ++ delimit (entryBytes S k m x y)).length := by
  rw [List.length_append, serializeVarintU32_length, variantUint32SizeConstexpr, delimit_length]
  omega

theorem toNat_lt_of_mem_entries {k m : Ty} {es : List (Val × Val)} {key keySize : ℕ}
    (hk : ∀ e ∈ es, ∀ n ∈ (pbKeyValueSize S e.1 k 1 false).2,
      n.toNat < (tagged (keyOf 1 k) (payloads S e.1 k false)).length)
    (hm : ∀ e ∈ es, ∀ n ∈ (pbKeyValueSize S e.2 m 1 false).2,
      n.toNat < (tagged (keyOf 2 m) (payloads S e.2 m false)).length) :
    ∀ n ∈ (entriesSize S (es.map fun e => .pair e.1 e.2) k m keySize).2,
      n.toNat < (tagged key (entriesPayloads S (es.map fun e => .pair e.1 e.2) k m)).length := by
  induction es with
  | nil => exact fun n hn => absurd hn List.not_mem_nil
  | cons e es ih =>
    intro n hn
    rw [List.map_cons, entriesSize, Sizes.add, Sizes.add, List.mem_append, List.mem_append] at hn
    rw [List.map_cons, entriesPayloads, tagged_cons, List.length_append]
    have hentry := entryBytes_length_lt (S := S) k m e.1 e.2 key
    rw [entryBytes, List.length_append] at hentry
    rcases hn with (hn | hn) | hn
    · have := hk e List.mem_cons_self n hn
      omega
    · have := hm e List.mem_cons_self n hn
      omega
    · have := ih (fun e he => hk e (List.mem_cons_of_mem _ he))
        (fun e he => hm e (List.mem_cons_of_mem _ he)) n hn
      omega

/-- Each size that is recorded for a value is smaller than what is written for it. -/
theorem toNat_lt_of_mem (hS : S.Valid) {t : Ty} {v : Val} (hv : S.HasTy t v)
    (ht : t.accepted = true) (hs : Sized S true t v) (key keySize : ℕ) (omitDefaultVal : Bool) :
    ∀ n ∈ (pbKeyValueSize S v t keySize omitDefaultVal).2,
      n.toNat < (tagged key (payloads S v t omitDefaultVal)).length := by
  induction hv generalizing key keySize omitDefaultVal with
  | message id vs hlen hfield hty ih =>
    have htop := (agrees_top hS (.message id vs hlen hfield hty) hs).size_eq
    cases hs with
    | message _ _ _ _ hsized _ =>
      have hmembers := toNat_lt_of_mem_message fun p hp f hf key keySize omitDefaultVal =>
        ih p hp f hf (hS.of_field hp hf).2 (hsized p hp f hf) key keySize omitDefaultVal
      have hle : ∀ n ∈ (pbKeyValueSize S (.list vs) (.message id) keySize omitDefaultVal).2,
          n.toNat ≤ (membersBytes S vs (S.message id).members).length := by
        intro n hn
        rw [pbKeyValueSize] at hn
        cases hbase : (S.message id).base with
        | true =>
          rw [hbase] at hn
          exact (hmembers n hn).le
        | false =>
          rw [hbase] at hn
          rcases List.mem_cons.mp hn with rfl | hn
          · rw [htop, BitVec.toNat_setWidth, BitVec.toNat_ofNat]
            exact (Nat.mod_le _ _).trans (Nat.mod_le _ _)
          · exact (hmembers n hn).le
      intro n hn
      have := hle n hn
      rw [payloads, tagged_cons, tagged_nil, List.append_nil, List.length_append, delimit_length,
        serializeVarintU32_length, variantUint32SizeConstexpr]
      omega
  | sequence t vs hty ih =>
    cases hs with
    | sequence _ _ _ _ hsized =>
      rw [pbKeyValueSize, payloads]
      split_ifs with hlenprefix hempty
      · exact toNat_lt_of_mem_items fun v hv =>
          ih v hv (accepted_of_sequence ht) (hsized v hv) key keySize false
      all_goals exact fun n hn => absurd hn List.not_mem_nil
  | map k m es hk hm hkeys ihk ihm =>
    cases hs with
    | map _ _ _ _ hksized hmsized _ _ =>
      have hpair : ∀ e ∈ es, Val.pair e.1 e.2 ∈ es.map fun e => Val.pair e.1 e.2 :=
        fun e he => List.mem_map_of_mem he
      have haccepted := accepted_of_map ht
      rw [pbKeyValueSize, payloads]
      exact toNat_lt_of_mem_entries
        (fun e he => ihk e he haccepted.1 (hksized _ _ (hpair e he)) _ _ _)
        fun e he => ihm e he haccepted.2 (hmsized _ _ (hpair e he)) _ _ _
  | some t v hv ih =>
    cases hs with
    | some _ _ _ hs => exact ih ht hs key keySize omitDefaultVal
  | _ =>
    intro n hn
    rw [pbKeyValueSize.eq_def] at hn
    exact absurd hn List.not_mem_nil

/-- What is recorded behind the size of a value itself. -/
theorem toNat_lt_of_mem_tail (hS : S.Valid) {t : Ty} {v : Val} (hv : S.HasTy t v)
    (ht : t.accepted = true) (hs : Sized S true t v) (hr : S.recorded t = true) (keySize : ℕ) :
    ∀ n ∈ (pbKeyValueSize S v t keySize false).2.tail, n.toNat < (content S v t).length := by
  induction hv with
  | message id vs hlen hfield hty ih =>
    cases hs with
    | message _ _ _ _ hsized _ =>
      have hbase : (S.message id).base = false := by simpa [Schema.recorded] using hr
      rw [pbKeyValueSize, hbase]
      exact toNat_lt_of_mem_message fun p hp f hf key keySize omitDefaultVal =>
        toNat_lt_of_mem hS (hty p hp f hf) (hS.of_field hp hf).2 (hsized p hp f hf) key keySize
          omitDefaultVal
  | none t => exact fun n hn => absurd hn List.not_mem_nil
  | some t v hv ih =>
    cases hs with
    | some _ _ _ hs => exact ih ht hs hr
  | _ => cases hr

end Recorded

/-! ### What is written beside what is counted -/

/-- The first pass counts `n` bytes, and the second writes as many and `more`. -/
structure Exceeds (w : Writes) (size : Sizes) (n more : ℕ) : Prop where
  size_eq : size.1 = BitVec.ofNat 64 n
  writes : ∀ rest, ∃ cs, w (size.2 ++ rest) = some (cs, rest) ∧ (bytesOf cs).length = n + more
  silent : n = 0 → more = 0

namespace Exceeds

variable {f g : Writes} {s s' : Sizes} {n n' e e' : ℕ}

theorem of_agrees {b : Bytes} (h : Agrees f s b) : Exceeds f s b.length 0 where
  size_eq := h.size_eq
  writes rest := by
    obtain ⟨cs, rfl, -, hw⟩ := h.writes
    exact ⟨cs, hw rest, rfl⟩
  silent _ := rfl

theorem andThen (hf : Exceeds f s n e) (hg : Exceeds g s' n' e') :
    Exceeds (f.andThen g) (s.add s') (n + n') (e + e') where
  size_eq := by rw [Sizes.add, hf.size_eq, hg.size_eq, BitVec.ofNat_add]
  writes rest := by
    obtain ⟨cs, hw, hcs⟩ := hf.writes (s'.2 ++ rest)
    obtain ⟨ds, hw', hds⟩ := hg.writes rest
    refine ⟨cs ++ ds, ?_, ?_⟩
    · rw [Writes.andThen, Sizes.add, List.append_assoc, hw]
      simp only [hw', Option.map_some]
    · rw [bytesOf_append, List.length_append, hcs, hds]
      omega
  silent h := by
    have hn := hf.silent (Nat.eq_zero_of_add_eq_zero_right h)
    have hn' := hg.silent (Nat.eq_zero_of_add_eq_zero_left h)
    omega

end Exceeds

/-- What is written exceeds what is counted, unless the condition is met. -/
def ExceedsUnless (w : Writes) (size : Sizes) (n : ℕ) (P : Prop) : Prop :=
  ∃ more, Exceeds w size n more ∧ (more = 0 → P)

namespace ExceedsUnless

variable {f g : Writes} {s s' : Sizes} {n n' : ℕ} {P Q : Prop}

theorem of_agrees {b : Bytes} (h : Agrees f s b) (hP : P) : ExceedsUnless f s b.length P :=
  ⟨0, .of_agrees h, fun _ => hP⟩

theorem andThen (hf : ExceedsUnless f s n P) (hg : ExceedsUnless g s' n' Q) :
    ExceedsUnless (f.andThen g) (s.add s') (n + n') (P ∧ Q) := by
  obtain ⟨e, he, hP⟩ := hf
  obtain ⟨e', he', hQ⟩ := hg
  exact ⟨e + e', he.andThen he', fun h =>
    ⟨hP (Nat.eq_zero_of_add_eq_zero_right h), hQ (Nat.eq_zero_of_add_eq_zero_left h)⟩⟩

theorem imp (hf : ExceedsUnless f s n P) (h : P → Q) : ExceedsUnless f s n Q := by
  obtain ⟨e, he, hP⟩ := hf
  exact ⟨e, he, fun hzero => h (hP hzero)⟩

end ExceedsUnless

section Lists

variable {S : Schema}

theorem exceeds_members {ms : List Member} {vs : List Val} {P : Field → Prop}
    (hlen : ms.length = vs.length)
    (h : ∀ p ∈ ms.zip vs, ∀ f, p.1.field p.2 = some f →
      ExceedsUnless (f.write S) (f.size S) (f.bytes S).length (P f)) :
    ExceedsUnless (toPbMembers S vs ms) (membersSize S vs ms) (membersBytes S vs ms).length
      (∀ p ∈ ms.zip vs, ∀ f, p.1.field p.2 = some f → P f) := by
  induction ms generalizing vs with
  | nil =>
    obtain rfl : vs = [] := List.length_eq_zero_iff.mp hlen.symm
    exact .of_agrees Agrees.done fun p hp => absurd hp List.not_mem_nil
  | cons m ms ih =>
    cases vs with
    | nil => exact absurd hlen (Nat.succ_ne_zero _)
    | cons v vs =>
      rw [toPbMembers_cons, membersSize_cons, membersBytes_cons, List.length_append]
      have hrest := ih (Nat.succ.inj hlen) fun p hp => h p (List.mem_cons_of_mem _ hp)
      have hfirst : ExceedsUnless (((m.field v).map (Field.write S)).getD done)
          (((m.field v).map (Field.size S)).getD (0, []))
          (((m.field v).map (Field.bytes S)).getD []).length
          (∀ f, m.field v = some f → P f) := by
        cases hf : m.field v with
        | none => exact .of_agrees Agrees.done fun f hf => absurd hf (Option.some_ne_none f).symm
        | some f =>
          exact (h (m, v) List.mem_cons_self f hf).imp fun hP f' hf' => Option.some.inj hf' ▸ hP
      refine (hfirst.andThen hrest).imp fun hP => ?_
      rw [List.zip_cons_cons, List.forall_mem_cons]
      exact hP

theorem exceeds_items {t : Ty} {vs : List Val} {P : Val → Prop} {key : ℕ}
    (h : ∀ v ∈ vs, ExceedsUnless (toPbImpl S v t key false)
      (pbKeyValueSize S v t (variantUint32SizeConstexpr key) false)
      (tagged key (payloads S v t false)).length (P v)) :
    ExceedsUnless (toPbItems S vs t key) (itemsSize S vs t (variantUint32SizeConstexpr key))
      (tagged key (itemsPayloads S vs t)).length (∀ v ∈ vs, P v) := by
  induction vs with
  | nil => exact .of_agrees Agrees.done (List.forall_mem_nil _)
  | cons v vs ih =>
    rw [toPbItems, itemsSize, itemsPayloads, tagged_append, List.length_append]
    refine ((h v List.mem_cons_self).andThen
      (ih fun w hw => h w (List.mem_cons_of_mem _ hw))).imp fun hP => ?_
    exact List.forall_mem_cons.mpr hP

/-- The entries of a map are written one after the other. -/
theorem toPbEntries_cons (x y : Val) (es : List Val) (k m : Ty) (key : ℕ) :
    toPbEntries S (.pair x y :: es) k m key =
      (toPbEntries S [.pair x y] k m key).andThen (toPbEntries S es k m key) := by
  have hnil : toPbEntries S [] k m key = done := by rw [toPbEntries.eq_def]
  funext ptr
  rw [Writes.andThen, toPbEntries, toPbEntries, hnil]
  simp only [Writes.andThen_done]
  cases pbValueSize S true x k ptr with
  | none => rfl
  | some p =>
    cases pbValueSize S false y m ptr with
    | none => rfl
    | some q =>
      simp only
      rw [← Writes.andThen_assoc]
      rfl

theorem entriesSize_cons (x y : Val) (es : List Val) (k m : Ty) (keySize : ℕ) :
    entriesSize S (.pair x y :: es) k m keySize =
      (entriesSize S [.pair x y] k m keySize).add (entriesSize S es k m keySize) := by
  have hnil : entriesSize S [] k m keySize = (0, []) := by rw [entriesSize.eq_def]
  rw [entriesSize, entriesSize, hnil, Sizes.add_zero]

theorem entriesPayloads_cons (x y : Val) (es : List Val) (k m : Ty) :
    entriesPayloads S (.pair x y :: es) k m =
      entriesPayloads S [.pair x y] k m ++ entriesPayloads S es k m := by
  have hnil : entriesPayloads S [] k m = [] := by rw [entriesPayloads.eq_def]
  rw [entriesPayloads, entriesPayloads, hnil, List.cons_append, List.nil_append]

theorem exceeds_entries {k m : Ty} {es : List (Val × Val)} {P : Val × Val → Prop} {key : ℕ}
    (h : ∀ e ∈ es, ExceedsUnless (toPbEntries S [.pair e.1 e.2] k m key)
      (entriesSize S [.pair e.1 e.2] k m (variantUint32SizeConstexpr key))
      (tagged key (entriesPayloads S [.pair e.1 e.2] k m)).length (P e)) :
    ExceedsUnless (toPbEntries S (es.map fun e => .pair e.1 e.2) k m key)
      (entriesSize S (es.map fun e => .pair e.1 e.2) k m (variantUint32SizeConstexpr key))
      (tagged key (entriesPayloads S (es.map fun e => .pair e.1 e.2) k m)).length
      (∀ e ∈ es, P e) := by
  induction es with
  | nil => exact .of_agrees Agrees.done (List.forall_mem_nil _)
  | cons e es ih =>
    rw [List.map_cons, toPbEntries_cons, entriesSize_cons, entriesPayloads_cons, tagged_append,
      List.length_append]
    refine ((h e List.mem_cons_self).andThen
      (ih fun e he => h e (List.mem_cons_of_mem _ he))).imp fun hP => ?_
    exact List.forall_mem_cons.mpr hP

end Lists

/-! ### One entry of a map -/

section Entry

variable {S : Schema} {k m : Ty} {x y : Val}

/-- An entry, from what its mapped value comes to. -/
theorem toPbEntries_single (hk : (k.isNum || k = .string) = true) (hx : S.HasTy k x)
    (hxagrees : ValueAgrees S k x) (hlt : (content S x k).length < 2 ^ 64) (key : ℕ)
    {vLen : BitVec 64} {ptr ptr' : Ptr} (hy : pbValueSize S false y m ptr = some (vLen, ptr')) :
    ∃ cs, bytesOf cs = tagged (keyOf 1 k) (payloads S x k false) ∧
      toPbEntries S [.pair x y] k m key ptr =
        (encodePairValue (keyOf 2 m) vLen (toPbImpl S y m (keyOf 2 m) false) ptr').map fun p =>
          ([.raw (serializeVarintU32 key),
            .delimited (pairLen k m (BitVec.ofNat 64 (content S x k).length) vLen).toNat
              (cs ++ p.1)], p.2) := by
  obtain ⟨cs, hcs, -, hw⟩ := (agrees_key hk hx hxagrees hlt).writes
  have hnil : toPbEntries S [] k m key = done := by rw [toPbEntries.eq_def]
  refine ⟨cs, hcs, ?_⟩
  have hkey := hw ptr'
  rw [List.nil_append] at hkey
  rw [toPbEntries, hnil]
  simp only [pbValueSize_key hk hx hxagrees, hy, Writes.andThen_done]
  simp only [Writes.andThen, emit, delimited, hkey, Option.map_map]
  rfl

theorem entriesSize_single_snd (hk : (k.isNum || k = .string) = true) (hx : S.HasTy k x)
    (keySize : ℕ) :
    (entriesSize S [.pair x y] k m keySize).2 = (pbKeyValueSize S y m 1 false).2 := by
  obtain ⟨-, -, -, hown⟩ := key_hasValueSize hk hx
  have hnil : entriesSize S [] k m keySize = (0, []) := by rw [entriesSize.eq_def]
  rw [entriesSize, hnil, Sizes.add_zero, Sizes.add, hown, List.nil_append]

/-- An entry that takes its sizes has the length that is written in front of it. -/
theorem pairLen_of_takes (hk : (k.isNum || k = .string) = true) (hx : S.HasTy k x)
    (hxagrees : ValueAgrees S k x) (hlt : (content S x k).length < 2 ^ 64) {key : ℕ}
    (htakes : Takes (toPbEntries S [.pair x y] k m key)
      (entriesSize S [.pair x y] k m (variantUint32SizeConstexpr key)))
    {vLen : BitVec 64} {ptr : Ptr}
    (hy : pbValueSize S false y m (pbKeyValueSize S y m 1 false).2 = some (vLen, ptr)) :
    ∃ ds, encodePairValue (keyOf 2 m) vLen (toPbImpl S y m (keyOf 2 m) false) ptr = some (ds, []) ∧
      AllSound ds ∧ (pairLen k m (BitVec.ofNat 64 (content S x k).length) vLen).toNat =
        (tagged (keyOf 1 k) (payloads S x k false)).length + (bytesOf ds).length := by
  obtain ⟨cs, hcs, hrun⟩ := toPbEntries_single hk hx hxagrees hlt key hy
  obtain ⟨all, hw, hsound⟩ := htakes []
  rw [List.append_nil, entriesSize_single_snd hk hx, hrun] at hw
  obtain ⟨⟨ds, rest⟩, hvalue, hall⟩ := Option.map_eq_some_iff.mp hw
  obtain ⟨rfl, rfl⟩ := Prod.mk.inj hall
  obtain ⟨-, ⟨hlen, hsound⟩, -⟩ := hsound
  refine ⟨ds, hvalue, hsound.right, ?_⟩
  rw [hlen, bytesOf_append, List.length_append, hcs]

/-- What has no field has no size. -/
theorem sizes_of_payloads_nil {t : Ty} {v : Val} (hv : S.HasTy t v)
    (ht : t.hasValueSize = true) (hnil : payloads S v t false = []) :
    (∀ keySize, pbKeyValueSize S v t keySize false = (0, [])) ∧
      ∀ skipNext ptr, pbValueSize S skipNext v t ptr = some (0, ptr) := by
  induction hv with
  | num k u hu => exact absurd hnil (List.cons_ne_nil _ _)
  | string s => exact absurd hnil (List.cons_ne_nil _ _)
  | message id vs => exact absurd hnil (List.cons_ne_nil _ _)
  | sequence t vs hvs ih =>
    obtain ⟨k, rfl⟩ : ∃ k, t = .num k := by
      cases t <;> first | exact ⟨_, rfl⟩ | cases ht
    have hpacked : (Ty.num k).isLenprefixed = false := by cases k <;> rfl
    rw [payloads, hpacked, if_neg Bool.false_ne_true] at hnil
    split_ifs at hnil with hempty
    obtain rfl := List.isEmpty_iff.mp hempty
    refine ⟨fun keySize => ?_, fun _ _ => by rw [pbValueSize]; rfl⟩
    rw [pbKeyValueSize, hpacked]
    rfl
  | map => cases ht
  | none t =>
    exact ⟨fun _ => by rw [pbKeyValueSize.eq_def], fun _ _ => by rw [pbValueSize.eq_def]⟩
  | some t v hv ih =>
    obtain ⟨hsize, hvalue⟩ := ih ht hnil
    exact ⟨hsize, fun _ ptr => by rw [pbValueSize]; exact hvalue true ptr⟩

/-- A value with a size in `size_arr` is written behind the one that it takes. -/
theorem length_of_toPbImpl {t : Ty} {v : Val} (hv : S.HasTy t v) (hr : S.recorded t = true)
    (hone : payloads S v t false ≠ []) {key : ℕ} {ptr ptr' : Ptr} {cs : List Chunk}
    (hrun : toPbImpl S v t key false ptr = some (cs, ptr')) (hsound : AllSound cs) :
    ∃ n ∈ ptr.head?, (bytesOf cs).length =
      variantUint32SizeConstexpr key + varintSize 9 n.toNat + n.toNat := by
  induction hv with
  | message id vs =>
    have hbase : (S.message id).base = false := by simpa [Schema.recorded] using hr
    cases ptr with
    | nil =>
      rw [toPbImpl] at hrun
      simp [pbValueSize, hbase] at hrun
    | cons n ptr =>
      refine ⟨n, rfl, ?_⟩
      have hn : (n.setWidth 64).toNat = n.toNat :=
        BitVec.toNat_setWidth_of_le (by decide)
      rw [toPbImpl] at hrun
      simp only [pbValueSize, hbase, Bool.false_eq_true, if_false, if_true] at hrun
      split_ifs at hrun with hzero
      · obtain ⟨rfl, -⟩ := Prod.mk.inj (Option.some.inj hrun)
        have hnzero : n.toNat = 0 := by rw [← hn, hzero]; rfl
        simp [bytesOf, Chunk.bytes, serializeVarintU32_length, varintBytes_length, hnzero]
      · simp only [Writes.andThen, emit, delimited, Option.map_map] at hrun
        obtain ⟨⟨ds, rest⟩, -, hds⟩ := Option.map_eq_some_iff.mp hrun
        obtain ⟨rfl, -⟩ := Prod.mk.inj hds
        obtain ⟨-, ⟨hlen, -⟩, -⟩ := hsound
        simp [bytesOf, Chunk.bytes, serializeVarintU32_length, varintBytes_length, ← hlen, hn]
        omega
  | none t => exact absurd rfl hone
  | some t v hv ih => exact ih hr hone hrun
  | _ => cases hr

/-- The size of a number and of what has it tells the number. -/
theorem eq_of_varintSize_add_eq {n l : ℕ} (h : varintSize 9 n + n = varintSize 9 l + l) :
    n = l := by
  rcases Nat.lt_trichotomy n l with hlt | heq | hlt
  · have := varintSize_mono 9 hlt.le
    omega
  · exact heq
  · have := varintSize_mono 9 hlt.le
    omega

/-- The mapped value of an entry that takes its sizes, when it has a field. -/
theorem mappedSized_of_takes (hS : S.Valid) (haccepted : (Ty.map k m).accepted = true)
    (hx : S.HasTy k x) (hy : S.HasTy m y) (hxs : Sized S true k x) (hys : Sized S true m y)
    (hlen : (entryBytes S k m x y).length < 2 ^ 32) (hone : payloads S y m false ≠ []) {key : ℕ}
    (htakes : Takes (toPbEntries S [.pair x y] k m key)
      (entriesSize S [.pair x y] k m (variantUint32SizeConstexpr key))) :
    MappedSized S m y := by
  have hm := accepted_of_map haccepted
  simp only [Ty.accepted, Bool.and_eq_true] at haccepted
  obtain ⟨⟨hk, -⟩, hsize⟩ := haccepted
  obtain ⟨hkval, -, hkone, -⟩ := key_hasValueSize hk hx
  have hxagrees := agrees_of_sized hS hx hm.1 hxs
  have hyagrees := agrees_of_sized hS hy hm.2 hys
  have hshorter : (content S x k).length ≤ (entryBytes S k m x y).length ∧
      (content S y m).length ≤ (entryBytes S k m x y).length := by
    rw [entryBytes, payloads_wrap hx hkval hkone, payloads_wrap hy hsize hone, List.length_append]
    exact ⟨(content_length_le _ _).trans (Nat.le_add_right _ _),
      (content_length_le _ _).trans (Nat.le_add_left _ _)⟩
  have hvalue := hyagrees.valueSize hsize hone false 1 []
  rw [List.append_nil, List.append_nil] at hvalue
  obtain ⟨ds, hrun, hsound, hpair⟩ :=
    pairLen_of_takes hk hx hxagrees (by omega) htakes hvalue
  rw [pairLen_eq hx hy hkval hsize hkone hone (fun h => hxagrees.kept hkval h hkone)
    fun h => hyagrees.kept hsize h hone, toNat_ofNat_of_lt (hlen.trans (by decide)), entryBytes,
    List.length_append, Nat.add_left_cancel_iff] at hpair
  refine ⟨hone, fun hr => ?_⟩
  have hlenprefixed := Schema.isLenprefixed_of_recorded hr
  constructor
  · -- the size of an empty message is left
    rintro ⟨id, rfl⟩ hempty
    have hnil := content_eq_nil hy hsize hlenprefixed hempty
    have hkeeps : S.takesSize false (.message id) = false := rfl
    rw [hnil, hkeeps] at hrun
    have hleft := (Prod.mk.inj (Option.some.inj hrun)).2
    have hown := hyagrees.silent hsize hone hnil 1
    rw [hr] at hown
    rw [Bool.toNat_false, List.drop_zero] at hleft
    rw [hleft] at hown
    cases hown
  · -- a value in an optional takes a size that is not its own
    intro hne
    by_contra hid
    have htaken : S.takesSize false m = true := (Schema.takesSize_false m).mpr ⟨hr, hid⟩
    have hcontent : content S y m ≠ [] := by
      intro hnil
      rw [payloads_wrap hy hsize hone, wrap, if_pos hlenprefixed, hnil] at hne
      exact hne rfl
    have hnonzero : BitVec.ofNat 64 (content S y m).length ≠ 0 := by
      rw [ne_eq, ofNat_eq_zero_iff (by omega)]
      exact mt List.length_eq_zero_iff.mp hcontent
    rw [htaken, encodePairValue, if_neg hnonzero] at hrun
    obtain ⟨n, hn, hwritten⟩ := length_of_toPbImpl hy hr hone hrun hsound
    rw [hwritten, payloads_wrap hy hsize hone, tagged_wrap_length, if_pos hlenprefixed] at hpair
    have heq : n.toNat = (content S y m).length := eq_of_varintSize_add_eq (by omega)
    have hlt := toNat_lt_of_mem_tail hS hy hm.2 hys hr 1 n ?_
    · omega
    · rw [Bool.toNat_true, List.drop_one] at hn
      exact List.mem_of_mem_head? hn

/-- A mapped value without a field is written as an empty one, which is not counted. -/
theorem exceeds_of_payloads_nil (hk : (k.isNum || k = .string) = true) (hx : S.HasTy k x)
    (hxagrees : ValueAgrees S k x) (hy : S.HasTy m y) (hm : m.hasValueSize = true)
    (hnil : payloads S y m false = []) (hlen : (entryBytes S k m x y).length < 2 ^ 32)
    (hlt : (content S x k).length < 2 ^ 64) {key : ℕ}
    (htakes : Takes (toPbEntries S [.pair x y] k m key)
      (entriesSize S [.pair x y] k m (variantUint32SizeConstexpr key))) :
    ∃ more, 0 < more ∧ Exceeds (toPbEntries S [.pair x y] k m key)
      (entriesSize S [.pair x y] k m (variantUint32SizeConstexpr key))
      (tagged key (entriesPayloads S [.pair x y] k m)).length more := by
  obtain ⟨hsize, hvalue⟩ := sizes_of_payloads_nil hy hm hnil
  have hentry : entryBytes S k m x y = tagged (keyOf 1 k) (payloads S x k false) := by
    rw [entryBytes, hnil, tagged_nil, List.append_nil]
  have hpayloads : entriesPayloads S [.pair x y] k m = [delimit (entryBytes S k m x y)] := by
    rw [entriesPayloads, entriesPayloads.eq_def, entryBytes]
  have htag : (serializeVarintU32 (keyOf 2 m)).length = 1 := by
    rw [serializeVarintU32_length, constexpr_entry le_rfl]
  obtain ⟨ds, hds, -, hpair⟩ := pairLen_of_takes hk hx hxagrees hlt htakes (hvalue false _)
  have hempty : ∀ ptr, encodePairValue (keyOf 2 m) 0 (toPbImpl S y m (keyOf 2 m) false) ptr =
      some ([.raw (serializeVarintU32 (keyOf 2 m)), .delimited 0 []], ptr) := fun _ => rfl
  rw [hempty] at hds
  obtain ⟨rfl, -⟩ := Prod.mk.inj (Option.some.inj hds)
  have hbytes : (bytesOf [.raw (serializeVarintU32 (keyOf 2 m)), .delimited 0 []]).length = 2 := by
    simp [bytesOf, Chunk.bytes, htag, varintBytes_length, varintSize]
  have hmono := varintSize_mono 9 (Nat.le_add_right (entryBytes S k m x y).length 2)
  rw [← hentry, hbytes] at hpair
  refine ⟨varintSize 9 ((entryBytes S k m x y).length + 2) -
    varintSize 9 (entryBytes S k m x y).length + 2, Nat.succ_pos _, ?_, fun rest => ?_, ?_⟩
  · have hcount := (hxagrees.agrees (keyOf 1 k) false (keyOf_ne_zero Nat.one_ne_zero k)).size_eq
    rw [constexpr_entry (by decide), ← hentry] at hcount
    have hnone : entriesSize S [] k m (variantUint32SizeConstexpr key) = (0, []) := by
      rw [entriesSize.eq_def]
    rw [entriesSize, hnone, Sizes.add_zero, hsize, Sizes.add_zero, hcount, hpayloads, tagged_cons,
      tagged_nil, List.append_nil, List.length_append, serializeVarintU32_length, delimit_length,
      BitVec.ofNat_add, lenSize_eq (.of_lt hlen)]
  · obtain ⟨cs, hcs, hrun⟩ := toPbEntries_single hk hx hxagrees hlt key (hvalue false rest)
    rw [hempty, Option.map_some] at hrun
    rw [entriesSize_single_snd hk hx, hsize]
    refine ⟨_, hrun, ?_⟩
    have hend : bytesOf [] = [] := rfl
    rw [hpayloads, tagged_cons, tagged_nil, List.append_nil, List.length_append, delimit_length,
      hpair, bytesOf, bytesOf, Chunk.bytes, Chunk.bytes, bytesOf_append, hcs, ← hentry]
    simp only [List.length_append, varintBytes_length, hbytes, hend, List.length_nil]
    omega
  · rw [hpayloads, tagged_cons, List.length_append, List.length_append, serializeVarintU32_length,
      variantUint32SizeConstexpr]
    omega

theorem exceeds_entry (hS : S.Valid) (haccepted : (Ty.map k m).accepted = true)
    (hx : S.HasTy k x) (hy : S.HasTy m y) (hxs : Sized S true k x) (hys : Sized S true m y)
    (hlen : (entryBytes S k m x y).length < 2 ^ 32) {key : ℕ}
    (htakes : Takes (toPbEntries S [.pair x y] k m key)
      (entriesSize S [.pair x y] k m (variantUint32SizeConstexpr key))) :
    ExceedsUnless (toPbEntries S [.pair x y] k m key)
      (entriesSize S [.pair x y] k m (variantUint32SizeConstexpr key))
      (tagged key (entriesPayloads S [.pair x y] k m)).length (MappedSized S m y) := by
  have hm := accepted_of_map haccepted
  have hxagrees := agrees_of_sized hS hx hm.1 hxs
  by_cases hnil : payloads S y m false = []
  · have hparts := haccepted
    simp only [Ty.accepted, Bool.and_eq_true] at hparts
    obtain ⟨hkval, -, hkone, -⟩ := key_hasValueSize hparts.1.1 hx
    have hlt : (content S x k).length ≤ (entryBytes S k m x y).length := by
      rw [entryBytes, payloads_wrap hx hkval hkone, List.length_append]
      exact (content_length_le _ _).trans (Nat.le_add_right _ _)
    obtain ⟨more, hpos, hmore⟩ := exceeds_of_payloads_nil hparts.1.1 hx hxagrees hy hparts.2 hnil
      hlen (by omega) htakes
    exact ⟨more, hmore, fun hzero => absurd hzero hpos.ne'⟩
  · have hmapped := mappedSized_of_takes hS haccepted hx hy hxs hys hlen hnil htakes
    have hone : ∀ {P : Val × Val → Prop}, P (x, y) → ∀ e ∈ [(x, y)], P e :=
      fun h e he => List.mem_singleton.mp he ▸ h
    have hagrees := @agrees_entries S k m [(x, y)] haccepted (hone hx) (hone hy) (hone hxagrees)
      (hone (agrees_of_sized hS hy hm.2 hys)) (hone (.of_lt hlen)) (hone hmapped) key
    exact .of_agrees hagrees hmapped

end Entry

/-! ### Messages -/

section Nested

variable {S : Schema}

/-- A message behind its size, which is that of what is written for its members only when no more
is written than was counted. -/
theorem eq_zero_of_takes {id : ℕ} {vs : List Val} {n more key : ℕ} (hn : n < 2 ^ 32)
    (hmore : Exceeds (toPbMembers S vs (S.message id).members)
      (membersSize S vs (S.message id).members) n more)
    (htakes : Takes (toPbImpl S (.list vs) (.message id) key false)
      (pbKeyValueSize S (.list vs) (.message id) (variantUint32SizeConstexpr key) false)) :
    more = 0 := by
  rcases Nat.eq_zero_or_pos n with rfl | hpos
  · exact hmore.silent rfl
  have hsize := hmore.size_eq
  have hnonzero : BitVec.ofNat 64 n ≠ 0 := by
    rw [ne_eq, ofNat_eq_zero_iff (hn.trans (by decide))]
    exact hpos.ne'
  have hvalue : ∀ rest, pbValueSize S true (.list vs) (.message id)
      ((pbKeyValueSize S (.list vs) (.message id) (variantUint32SizeConstexpr key) false).2 ++
        rest) =
      some (BitVec.ofNat 64 n, (membersSize S vs (S.message id).members).2 ++ rest) := by
    intro rest
    rw [pbKeyValueSize, hsize]
    cases hbase : (S.message id).base with
    | true => simp only [pbValueSize, hbase, if_true, hsize]
    | false =>
      have hentry : ((BitVec.ofNat 64 n).setWidth 32).setWidth 64 = BitVec.ofNat 64 n := by
        rw [BitVec.setWidth_ofNat_of_le (by decide),
          BitVec.setWidth_ofNat_of_le_of_lt (by decide) hn]
      simp only [pbValueSize, hbase, Bool.false_eq_true, if_false, if_true, List.cons_append,
        hentry]
  obtain ⟨cs, hw, hsound⟩ := htakes []
  obtain ⟨ds, hmembers, hlength⟩ := hmore.writes []
  rw [toPbImpl] at hw
  simp only [hvalue, if_neg hnonzero, Writes.andThen, emit, delimited, hmembers,
    Option.map_some] at hw
  obtain ⟨rfl, -⟩ := Prod.mk.inj (Option.some.inj hw)
  obtain ⟨-, ⟨hlen, -⟩, -⟩ := hsound
  rw [toNat_ofNat_of_lt (hn.trans (by decide)), hlength] at hlen
  omega

/-! ### Small values -/

/-- What is omitted is small. -/
theorem length_le_of_omitted {t : Ty} {v : Val} (hv : S.HasTy t v)
    (h : payloads S v t true = []) : ∀ b ∈ payloads S v t false, b.length ≤ 10 := by
  induction hv with
  | num k u hu => exact fun b hb => List.mem_singleton.mp hb ▸ k.bytes_length_le u
  | string s =>
    rw [payloads] at h
    split_ifs at h with hempty
    obtain rfl := List.isEmpty_iff.mp (by simpa using hempty)
    exact fun b hb => List.mem_singleton.mp hb ▸ by decide
  | some t v hv ih => exact ih h
  | none t => exact fun b hb => absurd hb List.not_mem_nil
  | _ =>
    rw [payloads] at h ⊢
    rw [h]
    exact fun b hb => absurd hb List.not_mem_nil

theorem length_lt_of_omitDefaultVal {t : Ty} {v : Val} {omitDefaultVal : Bool}
    (hv : S.HasTy t v) (h : ∀ b ∈ payloads S v t omitDefaultVal, b.length < 2 ^ 31) :
    ∀ b ∈ payloads S v t false, b.length < 2 ^ 31 := by
  cases omitDefaultVal with
  | false => exact h
  | true =>
    by_cases hnil : payloads S v t true = []
    · exact fun b hb => (length_le_of_omitted hv hnil b hb).trans_lt (by decide)
    · rwa [payloads_omitDefaultVal hnil] at h

theorem length_le_tagged {ps : List Bytes} {b : Bytes} (key : ℕ) (hb : b ∈ ps) :
    b.length ≤ (tagged key ps).length := by
  obtain ⟨qs, rs, rfl⟩ := List.append_of_mem hb
  rw [tagged_append, tagged_cons, List.length_append, List.length_append, List.length_append]
  omega

theorem Field.length_le {ms : List Member} {vs : List Val} {p : Member × Val} {f : Field}
    (hp : p ∈ ms.zip vs) (hf : p.1.field p.2 = some f) :
    (f.bytes S).length ≤ (membersBytes S vs ms).length := by
  induction ms generalizing vs with
  | nil => exact absurd hp List.not_mem_nil
  | cons m ms ih =>
    cases vs with
    | nil => exact absurd hp List.not_mem_nil
    | cons v vs =>
      rw [membersBytes_cons, List.length_append]
      rw [List.zip_cons_cons, List.mem_cons] at hp
      rcases hp with rfl | hp
      · rw [hf]
        exact Nat.le_add_right _ _
      · exact (ih hp).trans (Nat.le_add_left _ _)

/-- A field whose value is small is small without its key, whatever is omitted. -/
theorem Field.payloads_lt {f : Field} (hv : S.HasTy f.ty f.val)
    (h : (f.bytes S).length < 2 ^ 31) : ∀ b ∈ Pb.payloads S f.val f.ty false, b.length < 2 ^ 31 :=
  length_lt_of_omitDefaultVal hv fun _ hb => (length_le_tagged f.key hb).trans_lt h

theorem mem_itemsPayloads {t : Ty} {v : Val} {vs : List Val} (hv : v ∈ vs) {b : Bytes}
    (hb : b ∈ payloads S v t false) : b ∈ itemsPayloads S vs t := by
  induction vs with
  | nil => exact absurd hv List.not_mem_nil
  | cons w vs ih =>
    rw [itemsPayloads, List.mem_append]
    rcases List.mem_cons.mp hv with rfl | hv
    · exact .inl hb
    · exact .inr (ih hv)

theorem delimit_mem_entriesPayloads {k m : Ty} {e : Val × Val} {es : List (Val × Val)}
    (he : e ∈ es) : delimit (entryBytes S k m e.1 e.2) ∈
      entriesPayloads S (es.map fun e => .pair e.1 e.2) k m := by
  induction es with
  | nil => exact absurd he List.not_mem_nil
  | cons f es ih =>
    rw [List.map_cons, entriesPayloads, List.mem_cons]
    rcases List.mem_cons.mp he with rfl | he
    · exact .inl rfl
    · exact .inr (ih he)

theorem packedBytes_of_isNum {t : Ty} (h : t.isNum = false) (vs : List Val) :
    packedBytes t vs = [] := by
  cases t with
  | num => cases h
  | _ => exact List.flatMap_eq_nil_iff.mpr fun _ _ => rfl

/-! ### The sizes are found where the passes agree -/

/-- What is known of a value whose parts take their sizes. -/
structure Gauged (S : Schema) (t : Ty) (v : Val) : Prop where
  exceeds : ∀ key omitDefaultVal, key ≠ 0 → ExceedsUnless (toPbImpl S v t key omitDefaultVal)
    (pbKeyValueSize S v t (variantUint32SizeConstexpr key) omitDefaultVal)
    (tagged key (payloads S v t omitDefaultVal)).length (Sized S true t v)
  sized : t.hasValueSize = true → Sized S true t v

theorem gauged_of_sized (hS : S.Valid) {t : Ty} {v : Val} (hv : S.HasTy t v)
    (ht : t.accepted = true) (hs : Sized S true t v) : Gauged S t v where
  exceeds key omitDefaultVal hkey :=
    .of_agrees ((agrees_of_sized hS hv ht hs).agrees key omitDefaultVal hkey) hs
  sized _ := hs

theorem exceeds_field {f : Field} (hkey : f.key ≠ 0) (h : Gauged S f.ty f.val)
    (hlen : (f.bytes S).length < 2 ^ 31) :
    ExceedsUnless (f.write S) (f.size S) (f.bytes S).length (Sized S true f.ty f.val) := by
  have hfield := h.exceeds f.key f.omitDefaultVal hkey
  have hsize : f.size S =
      pbKeyValueSize S f.val f.ty (variantUint32SizeConstexpr f.key) f.omitDefaultVal := by
    obtain ⟨more, hmore, -⟩ := hfield
    rw [Field.size]
    split_ifs
    · rfl
    · exact oneofSize_eq hmore.size_eq hlen
  rw [hsize]
  exact hfield

/-- The members of a message, from what is known of each. -/
theorem exceeds_message (hS : S.Valid) {id : ℕ} {vs : List Val}
    (hlen : (S.message id).members.length = vs.length)
    (hsmall : (membersBytes S vs (S.message id).members).length < 2 ^ 31)
    (h : ∀ p ∈ (S.message id).members.zip vs, ∀ f, p.1.field p.2 = some f →
      Gauged S f.ty f.val) :
    ExceedsUnless (toPbMembers S vs (S.message id).members)
      (membersSize S vs (S.message id).members)
      (membersBytes S vs (S.message id).members).length
      (∀ p ∈ (S.message id).members.zip vs, ∀ f, p.1.field p.2 = some f →
        Sized S true f.ty f.val) :=
  exceeds_members (P := fun f => Sized S true f.ty f.val) hlen fun p hp f hf =>
    exceeds_field (keyOf_ne_zero (Nat.one_le_iff_ne_zero.mp (hS.of_field hp hf).1.1) f.ty)
      (h p hp f hf) ((Field.length_le hp hf).trans_lt hsmall)

theorem sized_message {nested : Bool} {id : ℕ} {vs : List Val}
    (hsmall : (membersBytes S vs (S.message id).members).length < 2 ^ 31)
    (h : ∀ p ∈ (S.message id).members.zip vs, ∀ f, p.1.field p.2 = some f →
      Sized S true f.ty f.val) : Sized S nested (.message id) (.list vs) := by
  refine .message nested id vs (fun _ => ?_) h fun p hp f hf _ =>
    (Field.length_le hp hf).trans_lt hsmall
  split_ifs
  · exact .of_lt (hsmall.trans (by decide))
  · exact hsmall.trans (by decide)

theorem sized_packed {k : Num} {vs : List Val} (hty : ∀ v ∈ vs, S.HasTy (.num k) v)
    (hsmall : ∀ b ∈ payloads S (.list vs) (.sequence (.num k)) false, b.length < 2 ^ 31) :
    Sized S true (.sequence (.num k)) (.list vs) := by
  refine .sequence true _ vs ?_ fun v hv => ?_
  · have hpacked : (Ty.num k).isLenprefixed = false := by cases k <;> rfl
    rw [payloads, hpacked, if_neg Bool.false_ne_true] at hsmall
    split_ifs at hsmall with hempty
    · obtain rfl := List.isEmpty_iff.mp hempty
      exact .of_lt (Nat.two_pow_pos 32)
    · have hbytes := hsmall _ (List.mem_singleton_self _)
      rw [delimit_length] at hbytes
      exact .of_lt (by omega)
  · cases hty v hv with
    | num _ u _ => exact .num true k u

theorem gauged_items {t : Ty} {vs : List Val} (hlenprefixed : t.isLenprefixed = true)
    (hnum : t.isNum = false) (h : ∀ v ∈ vs, Gauged S t v) :
    Gauged S (.sequence t) (.list vs) where
  exceeds key omitDefaultVal hkey := by
    rw [toPbImpl, pbKeyValueSize, payloads, if_pos hlenprefixed, if_pos hlenprefixed,
      if_pos hlenprefixed]
    refine (exceeds_items fun v hv => (h v hv).exceeds key false hkey).imp fun hsized =>
      .sequence true t vs ?_ hsized
    rw [packedBytes_of_isNum hnum]
    exact .of_lt (by decide)
  sized h := absurd (hnum.symm.trans h) Bool.false_ne_true

theorem gauged_map (hS : S.Valid) {k m : Ty} {es : List (Val × Val)}
    (haccepted : (Ty.map k m).accepted = true) (hk : ∀ e ∈ es, S.HasTy k e.1)
    (hm : ∀ e ∈ es, S.HasTy m e.2)
    (hsmall : ∀ e ∈ es, (entryBytes S k m e.1 e.2).length < 2 ^ 31)
    (hkeys : ∀ e ∈ es, Gauged S k e.1) (hvalues : ∀ e ∈ es, Gauged S m e.2)
    (htakes : ∀ e ∈ es, ValueTakes S (.map k m, .list [.pair e.1 e.2])) :
    Gauged S (.map k m) (.list (es.map fun e => .pair e.1 e.2)) where
  exceeds key omitDefaultVal hkey := by
    have hparts := haccepted
    simp only [Ty.accepted, Bool.and_eq_true] at hparts
    have hks : ∀ e ∈ es, Sized S true k e.1 := fun e he =>
      (hkeys e he).sized (key_hasValueSize hparts.1.1 (hk e he)).1
    have hms : ∀ e ∈ es, Sized S true m e.2 := fun e he => (hvalues e he).sized hparts.2
    have hlen : ∀ e ∈ es, (entryBytes S k m e.1 e.2).length < 2 ^ 32 :=
      fun e he => (hsmall e he).trans (by decide)
    have hentries := exceeds_entries (P := fun e => MappedSized S m e.2)
      fun e he => by
        have hentry := htakes e he key false hkey
        rw [toPbImpl, pbKeyValueSize] at hentry
        exact exceeds_entry hS haccepted (hk e he) (hm e he) (hks e he) (hms e he) (hlen e he)
          hentry
    rw [toPbImpl, pbKeyValueSize, payloads]
    refine hentries.imp fun hmapped => .map true k m _ ?_ ?_ ?_ ?_
    · exact fun x y h => hks (x, y) (mem_of_pair h)
    · exact fun x y h => hms (x, y) (mem_of_pair h)
    · exact fun x y h => .of_lt (hlen (x, y) (mem_of_pair h))
    · exact fun x y h => hmapped (x, y) (mem_of_pair h)
  sized h := Bool.noConfusion h

/-- A value whose parts take their sizes, and which is not large. -/
theorem gauged_of_takes (hS : S.Valid) {t : Ty} {v : Val} (hv : S.HasTy t v)
    (ht : t.accepted = true) (hsmall : ∀ b ∈ payloads S v t false, b.length < 2 ^ 31)
    (htakes : ∀ p, ReflTransGen (Part S) p (t, v) → ValueTakes S p) : Gauged S t v := by
  induction hv with
  | num k u hu => exact gauged_of_sized hS (.num k u hu) ht (.num true k u)
  | string s =>
    have hlen := hsmall (delimit s) (List.mem_singleton_self _)
    rw [delimit_length] at hlen
    exact gauged_of_sized hS (.string s) ht (.string true s (.of_lt (by omega)))
  | message id vs hlen hfield hty ih =>
    have hbytes := hsmall _ (List.mem_singleton_self _)
    rw [delimit_length] at hbytes
    have hmembers : (membersBytes S vs (S.message id).members).length < 2 ^ 31 := by omega
    obtain ⟨more, hmore, hsized⟩ := exceeds_message hS hlen hmembers fun p hp f hf =>
      ih p hp f hf (hS.of_field hp hf).2
        (Field.payloads_lt (hty p hp f hf) ((Field.length_le hp hf).trans_lt hmembers))
        fun q hq => htakes q (hq.tail (.field id vs p f hp hf))
    -- the size in front of the message is what was counted
    have hzero := eq_zero_of_takes (by omega) hmore (htakes _ .refl 1 false Nat.one_ne_zero)
    exact gauged_of_sized hS (.message id vs hlen hfield hty) ht
      (sized_message hmembers (hsized hzero))
  | sequence t vs hty ih =>
    cases hnum : t.isNum with
    | true =>
      obtain ⟨k, rfl⟩ : ∃ k, t = .num k := by
        cases t <;> first | exact ⟨_, rfl⟩ | cases hnum
      exact gauged_of_sized hS (.sequence _ vs hty) ht (sized_packed hty hsmall)
    | false =>
      have hlenprefixed : t.isLenprefixed = true := by
        simp only [Ty.accepted, Bool.and_eq_true, hnum, Bool.or_false] at ht
        exact ht.2
      rw [payloads, if_pos hlenprefixed] at hsmall
      exact gauged_items hlenprefixed hnum fun v hv => ih v hv (accepted_of_sequence ht)
        (fun b hb => hsmall b (mem_itemsPayloads hv hb))
        fun q hq => htakes q (hq.tail (.item t vs v hv))
  | map k m es hk hm hkeys ihk ihm =>
    rw [payloads] at hsmall
    have hpair : ∀ e ∈ es, Val.pair e.1 e.2 ∈ es.map fun e => Val.pair e.1 e.2 :=
      fun e he => List.mem_map_of_mem he
    have haccepted := accepted_of_map ht
    have hlen : ∀ e ∈ es, (entryBytes S k m e.1 e.2).length < 2 ^ 31 := by
      intro e he
      have hbytes := hsmall _ (delimit_mem_entriesPayloads he)
      rw [delimit_length] at hbytes
      omega
    have hsides : ∀ e ∈ es, (∀ b ∈ payloads S e.1 k false, b.length < 2 ^ 31) ∧
        ∀ b ∈ payloads S e.2 m false, b.length < 2 ^ 31 := by
      intro e he
      have hentry := hlen e he
      rw [entryBytes, List.length_append] at hentry
      constructor
      · intro b hb
        have := length_le_tagged (keyOf 1 k) hb
        omega
      · intro b hb
        have := length_le_tagged (keyOf 2 m) hb
        omega
    refine gauged_map hS ht hk hm hlen (fun e he => ?_) (fun e he => ?_) fun e he => ?_
    · exact ihk e he haccepted.1 (hsides e he).1
        fun q hq => htakes q (hq.tail (.key k m _ e.1 e.2 (hpair e he)))
    · exact ihm e he haccepted.2 (hsides e he).2
        fun q hq => htakes q (hq.tail (.mapped k m _ e.1 e.2 (hpair e he)))
    · exact htakes _ (.single (.entry k m _ e.1 e.2 (hpair e he)))
  | none t => exact gauged_of_sized hS (.none t) ht (.none true t)
  | some t v hv ih =>
    have hinner := ih ht hsmall fun q hq => htakes q (hq.tail (.some t v))
    exact ⟨fun key omitDefaultVal hkey =>
      (hinner.exceeds key omitDefaultVal hkey).imp (.some true t v),
      fun h => .some true t v (hinner.sized h)⟩

end Nested

section Whole

variable {S : Schema}

/-- Where the passes agree on a message that is not large, the sizes are found. -/
theorem sized_of_passesAgree (hS : S.Valid) {id : ℕ} {vs : List Val}
    (hv : S.HasTy (.message id) (.list vs))
    (hlen : (membersBytes S vs (S.message id).members).length < 2 ^ 31)
    (h : PassesAgree S id vs) : Sized S false (.message id) (.list vs) := by
  cases hv with
  | message _ _ hmembers hfield hty =>
    obtain ⟨more, hmore, hsized⟩ := exceeds_message hS hmembers hlen fun p hp f hf =>
      gauged_of_takes hS (hty p hp f hf) (hS.of_field hp hf).2
        (Field.payloads_lt (hty p hp f hf) ((Field.length_le hp hf).trans_lt hlen))
        fun q hq => h.taken q (.tail' hq (.field id vs p f hp hf))
    obtain ⟨cs, hw, hcounted, -⟩ := h.written
    obtain ⟨ds, hw', hds⟩ := hmore.writes []
    rw [List.append_nil, hw] at hw'
    obtain ⟨rfl, -⟩ := Prod.mk.inj (Option.some.inj hw')
    rw [hmore.size_eq, toNat_ofNat_of_lt (hlen.trans (by decide)), hds] at hcounted
    exact sized_message hlen (hsized (by omega))

/-- The passes agree where the sizes are found, and on a message of less than 2^31 bytes only
there. -/
theorem passesAgree_iff (hS : S.Valid) {id : ℕ} {vs : List Val}
    (hv : S.HasTy (.message id) (.list vs)) :
    (Sized S false (.message id) (.list vs) →
      (membersBytes S vs (S.message id).members).length < 2 ^ 64 → PassesAgree S id vs) ∧
    ((membersBytes S vs (S.message id).members).length < 2 ^ 31 →
      (PassesAgree S id vs ↔ Sized S false (.message id) (.list vs))) :=
  ⟨passesAgree_of_sized hS hv, fun hlen => ⟨sized_of_passesAgree hS hv hlen, fun hs =>
    passesAgree_of_sized hS hv hs (hlen.trans (by decide))⟩⟩

/-- `struct shelf { std::vector<item> items; std::map<int32_t, item> byId;
std::optional<item> first; std::map<int32_t, std::optional<item>> drafts; }` and
`struct item { int32_t n; }`. -/
def shelfSchema : Schema :=
  [⟨false, [⟨1, .plain (.sequence (.message 1))⟩, ⟨2, .plain (.map int32 (.message 1))⟩,
      ⟨3, .plain (.optional (.message 1))⟩, ⟨4, .plain (.map int32 (.optional (.message 1)))⟩],
    [.list [], .list [], .none, .list []]⟩,
  ⟨false, [⟨1, .plain int32⟩], [.num 0]⟩]

/-- An item, which is empty when its number is 0. -/
def item (u : BitVec 64) : Val := .list [.num u]

/-- A shelf with three items, of which the second is empty, two items with a number, an empty
item that is the first one, and a draft that is empty. -/
def shelf : List Val :=
  [.list [item 7, item 0, item 300], .list [.pair (.num 1) (item 5), .pair (.num 2) (item 6)],
    .some (item 0), .list [.pair (.num 3) (.some (item 0))]]

theorem hasTy_shelfItem (u : BitVec 64) (hu : (Num.integral .w32 true).cast u = u) :
    shelfSchema.HasTy (.message 1) (item u) :=
  hasTy_of_fields (.cons ⟨_, rfl, .num _ _ hu⟩ .nil)

theorem hasTy_emptyMap (k m : Ty) : S.HasTy (.map k m) (.list []) :=
  .map k m [] (List.forall_mem_nil _) (List.forall_mem_nil _) List.nodup_nil

theorem valid_shelfSchema : shelfSchema.Valid where
  nodup id := by
    match id with
    | 0 => decide
    | 1 => decide
    | _ + 2 => exact List.nodup_nil
  fieldNo id := by
    match id with
    | 0 => decide
    | 1 => decide
    | _ + 2 => exact List.forall_mem_nil _
  accepted id := by
    match id with
    | 0 => decide
    | 1 => decide
    | _ + 2 => exact List.forall_mem_nil _
  init id := by
    match id with
    | 0 =>
      exact hasTy_of_fields (.cons ⟨_, rfl, .sequence _ _ (List.forall_mem_nil _)⟩
        (.cons ⟨_, rfl, hasTy_emptyMap _ _⟩ (.cons ⟨_, rfl, .none _⟩
          (.cons ⟨_, rfl, hasTy_emptyMap _ _⟩ .nil))))
    | 1 => exact hasTy_shelfItem 0 rfl
    | _ + 2 => exact hasTy_of_fields .nil

theorem hasTy_shelf : shelfSchema.HasTy (.message 0) (.list shelf) := by
  refine hasTy_of_fields (.cons ⟨_, rfl, ?_⟩ (.cons ⟨_, rfl, ?_⟩
    (.cons ⟨_, rfl, .some _ _ (hasTy_shelfItem 0 rfl)⟩ (.cons ⟨_, rfl, ?_⟩ .nil))))
  · apply Schema.HasTy.sequence
    simp only [List.forall_mem_cons]
    exact ⟨hasTy_shelfItem 7 rfl, hasTy_shelfItem 0 rfl, hasTy_shelfItem 300 rfl,
      List.forall_mem_nil _⟩
  · apply Schema.HasTy.map _ _ [(.num 1, item 5), (.num 2, item 6)]
    · simp only [List.forall_mem_cons]
      exact ⟨.num _ _ rfl, .num _ _ rfl, List.forall_mem_nil _⟩
    · simp only [List.forall_mem_cons]
      exact ⟨hasTy_shelfItem 5 rfl, hasTy_shelfItem 6 rfl, List.forall_mem_nil _⟩
    · simp
  · apply Schema.HasTy.map _ _ [(.num 3, .some (item 0))]
    · exact List.forall_mem_cons.mpr ⟨.num _ _ rfl, List.forall_mem_nil _⟩
    · exact List.forall_mem_cons.mpr ⟨.some _ _ (hasTy_shelfItem 0 rfl), List.forall_mem_nil _⟩
    · exact List.nodup_singleton _

theorem sized_shelfItem {u : BitVec 64}
    (hlen : (membersBytes shelfSchema [.num u] (shelfSchema.message 1).members).length < 2 ^ 31) :
    Sized shelfSchema true (.message 1) (item u) := by
  refine sized_message hlen fun p hp f hf => ?_
  obtain rfl := List.mem_singleton.mp hp
  obtain rfl := Option.some.inj hf
  exact .num _ _ _

theorem sized_of_entries {nested : Bool} {k m : Ty} (es : List (Val × Val))
    (h : ∀ e ∈ es, Sized S true k e.1 ∧ Sized S true m e.2 ∧
      SizeKept (entryBytes S k m e.1 e.2).length ∧ MappedSized S m e.2) :
    Sized S nested (.map k m) (.list (es.map fun e => .pair e.1 e.2)) := by
  refine .map _ _ _ _ (fun x y he => ?_) (fun x y he => ?_) (fun x y he => ?_) fun x y he => ?_
  all_goals have hentry := h (x, y) (mem_of_pair he)
  · exact hentry.1
  · exact hentry.2.1
  · exact hentry.2.2.1
  · exact hentry.2.2.2

theorem sized_shelf : Sized shelfSchema false (.message 0) (.list shelf) := by
  refine sized_of_fields (fun h => Bool.noConfusion h) (.cons ⟨_, rfl, ?_, by decide⟩
    (.cons ⟨_, rfl, ?_, by decide⟩ (.cons ⟨_, rfl, .some _ _ _ (sized_shelfItem (by decide)),
      by decide⟩ (.cons ⟨_, rfl, ?_, by decide⟩ .nil))))
  · apply Sized.sequence _ _ _ (.of_lt (by decide))
    simp only [List.forall_mem_cons]
    exact ⟨sized_shelfItem (by decide), sized_shelfItem (by decide), sized_shelfItem (by decide),
      List.forall_mem_nil _⟩
  · -- no item is empty
    apply sized_of_entries [(.num 1, item 5), (.num 2, item 6)]
    simp only [List.forall_mem_cons]
    refine ⟨⟨.num _ _ _, sized_shelfItem (by decide), .of_lt (by decide), by decide, fun _ => ?_⟩,
      ⟨.num _ _ _, sized_shelfItem (by decide), .of_lt (by decide), by decide, fun _ => ?_⟩,
      List.forall_mem_nil _⟩
    all_goals exact iff_of_true ⟨1, rfl⟩ (by decide)
  · -- and the draft is
    apply sized_of_entries [(.num 3, .some (item 0))]
    refine List.forall_mem_cons.mpr ⟨⟨.num _ _ _, .some _ _ _ (sized_shelfItem (by decide)),
      .of_lt (by decide), by decide, fun _ => ?_⟩, List.forall_mem_nil _⟩
    refine iff_of_false ?_ (not_not_intro (by decide))
    rintro ⟨id, hid⟩
    cases hid

theorem passesAgree_shelf : PassesAgree shelfSchema 0 shelf ∧
    (PassesAgree shelfSchema 0 shelf ↔ Sized shelfSchema false (.message 0) (.list shelf)) :=
  ⟨(passesAgree_iff valid_shelfSchema hasTy_shelf).1 sized_shelf (by decide),
    (passesAgree_iff valid_shelfSchema hasTy_shelf).2 (by decide)⟩

/-- A shelf with an empty item, and another with a number. -/
def emptyFirst : List Val :=
  [.list [], .list [.pair (.num 1) (item 0), .pair (.num 2) (item 5)], .none, .list []]

/-- The size of the empty item is left, and taken for that of the other, whose number is not
written. -/
theorem not_passesAgree_emptyFirst : shelfSchema.HasTy (.message 0) (.list emptyFirst) ∧
    ¬ PassesAgree shelfSchema 0 emptyFirst := by
  constructor
  · refine hasTy_of_fields (.cons ⟨_, rfl, .sequence _ _ (List.forall_mem_nil _)⟩
      (.cons ⟨_, rfl, ?_⟩ (.cons ⟨_, rfl, .none _⟩ (.cons ⟨_, rfl, hasTy_emptyMap _ _⟩ .nil))))
    apply Schema.HasTy.map _ _ [(.num 1, item 0), (.num 2, item 5)]
    · simp only [List.forall_mem_cons]
      exact ⟨.num _ _ rfl, .num _ _ rfl, List.forall_mem_nil _⟩
    · simp only [List.forall_mem_cons]
      exact ⟨hasTy_shelfItem 0 rfl, hasTy_shelfItem 5 rfl, List.forall_mem_nil _⟩
    · simp
  intro h
  obtain ⟨cs, hw, -⟩ := h.written
  have hleft : some [0, 2] = some ([] : Ptr) := congrArg (Option.map Prod.snd) hw
  exact absurd hleft (by decide)

end Whole

end Yalantinglibs.Iguana.Pb
