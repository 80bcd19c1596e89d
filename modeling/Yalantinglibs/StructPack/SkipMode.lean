import Yalantinglibs.StructPack.RoundTrip
import Yalantinglibs.StructPack.WaryReader

/-!
# Skipping a payload

`deserialize_one` with `NotSkip == false` is to consume what it consumes with `NotSkip == true`. It
does so for a payload in which decoding comes to no container whose elements a shortcut of the skip
mode would not consume as they are decoded.

## Main definitions

* `SkipsAlike` — there is no such container in a payload
* `SameVerdict` — a payload is skipped as it is decoded

## Main results

* `sameVerdict_of_skipsAlike` — such a payload is
* `not_sameVerdict_map`, `not_sameVerdict_set` — for a map of padded pairs, or a set of
  `monostate`s, some are not
-/

set_option autoImplicit false

namespace Yalantinglibs.StructPack

open ByteCodec Decoding

namespace TypeEnv

variable (Γ : TypeEnv)

/-! ### What is to hold -/

/-- Skipping consumes what decoding does, into fresh objects: with depth enough to decode, and twice
that to skip, one is done if the other is, with the same bytes left, and fails if the other does. -/
def SameVerdict (w : ℕ) (t : Ty) (bs : Bytes) : Prop :=
  ∀ fuel fuel' : ℕ, 2 * fuel ≤ fuel' →
    let decoded := Γ.deserializeOne fuel w true SpConfig.DEFAULT t (Γ.fresh t) bs
    let skipped := Γ.deserializeOne fuel' w false SpConfig.DEFAULT t (Γ.fresh t) bs
    decoded ≠ .tooDeep →
      (∀ rest, (∃ x, decoded = .done x rest) ↔ ∃ y, skipped = .done y rest) ∧
        (∀ code, (∃ x rest, decoded = .fail code x rest) ↔
          ∃ y rest, skipped = .fail code y rest) ∧
        skipped ≠ .tooDeep

/-- The shortcuts are right for all containers that decoding comes to: with depth enough to decode,
a reader that looks out for them does not give up. -/
def SkipsAlike (w : ℕ) (t : Ty) (bs : Bytes) : Prop :=
  ∀ fuel : ℕ, Γ.deserializeOne fuel w true SpConfig.DEFAULT t (Γ.fresh t) bs ≠ .tooDeep →
    Γ.wary fuel w false true SpConfig.DEFAULT t (Γ.fresh t) bs ≠ .tooDeep

variable {Γ} {t u : Ty}

/-! ### The alternatives that an object holds -/

section Alternatives

variable {n : ℕ} {x y : Val} {xs ys : List Val}

theorem alternatives_succ (ht : ∀ u e, t ≠ .expected u e) (n : ℕ) (x : Val) :
    Γ.alternatives (n + 1) t x =
      .members (memberKeys (Γ.alternatives n) (Γ.memberTypes t) x.items) := by
  cases t with
  | expected u e => exact absurd rfl (ht u e)
  | _ => rfl

/-- The members of an object. -/
theorem alternatives_succ_iff (ht : ∀ u e, t ≠ .expected u e) :
    Γ.alternatives (n + 1) t x = Γ.alternatives (n + 1) t y ↔
      memberKeys (Γ.alternatives n) (Γ.memberTypes t) x.items =
        memberKeys (Γ.alternatives n) (Γ.memberTypes t) y.items := by
  rw [alternatives_succ ht, alternatives_succ ht, Alternatives.members_inj]

/-- An object without members is like any other of its type. -/
theorem alternatives_leaf (ht : ∀ u e, t ≠ .expected u e) (hleaf : Γ.memberTypes t = []) (n : ℕ)
    (x y : Val) : Γ.alternatives n t x = Γ.alternatives n t y := by
  cases n with
  | zero => rfl
  | succ n =>
    rw [alternatives_succ ht, alternatives_succ ht, hleaf]
    rfl

/-- An `expected` that holds an error. -/
theorem alternatives_error {e : Ty} (hx : ∀ v, x ≠ .alt 1 v) (n : ℕ) :
    Γ.alternatives (n + 1) (.expected t e) x = .error := by
  rw [alternatives]
  rintro v rfl
  exact hx v rfl

/-- The alternatives of two `expected`s are the same. -/
theorem alternatives_expected_eq {e : Ty}
    (h : Γ.alternatives (n + 1) (.expected t e) x = Γ.alternatives (n + 1) (.expected t e) y) :
    (∃ v v', x = .alt 1 v ∧ y = .alt 1 v' ∧ Γ.alternatives n t v = Γ.alternatives n t v') ∨
      (∀ v, x ≠ .alt 1 v) ∧ ∀ v, y ≠ .alt 1 v := by
  by_cases hx : ∃ v, x = .alt 1 v
  · obtain ⟨v, rfl⟩ := hx
    by_cases hy : ∃ v, y = .alt 1 v
    · obtain ⟨v', rfl⟩ := hy
      exact .inl ⟨v, v', rfl, rfl, Alternatives.value.inj h⟩
    · rw [alternatives_error (not_exists.mp hy)] at h
      cases h
  · by_cases hy : ∃ v, y = .alt 1 v
    · obtain ⟨v', rfl⟩ := hy
      rw [alternatives_error (not_exists.mp hx)] at h
      cases h
    · exact .inr ⟨not_exists.mp hx, not_exists.mp hy⟩

theorem memberTypes_class (hclass : isClass t = true) :
    Γ.memberTypes t = if Γ.isTrivialSerializable t then [] else Γ.getTypes t := by
  cases t with
  | pair a b => rfl
  | struct name => rfl
  | _ => cases hclass

/-! ### Objects that are moved from -/

theorem movedFromAll_getElem? (t : Ty) (xs : List Val) (i : ℕ) :
    (Γ.movedFromAll t xs)[i]? = xs[i]?.map (Γ.movedFrom t) := by
  induction xs generalizing i with
  | nil => simp [movedFromAll]
  | cons x xs ih =>
    cases i with
    | zero => rfl
    | succ i => exact ih i

theorem movedFromMany_getElem? {i : ℕ} {ts : List Ty} (hu : ts[i]? = some u) (xs : List Val) :
    (Γ.movedFromMany ts xs)[i]? = xs[i]?.map (Γ.movedFrom u) := by
  induction ts generalizing xs i with
  | nil => cases hu
  | cons t ts ih =>
    cases xs with
    | nil => rfl
    | cons x xs =>
      cases i with
      | zero =>
        obtain rfl := Option.some.inj hu
        rfl
      | succ i => exact ih hu xs

/-- The members that are moved from, or were not there. -/
theorem alternatives_map {i : ℕ} (h : ∀ x, Γ.alternatives n u (Γ.movedFrom u x) =
    Γ.alternatives n u x) (hi : ys[i]? = xs[i]?.map (Γ.movedFrom u)) :
    Γ.alternatives n u (ys.getD i default) = Γ.alternatives n u (xs.getD i default) := by
  rw [List.getD_eq_getElem?_getD, List.getD_eq_getElem?_getD, hi]
  cases xs[i]? with
  | none => rfl
  | some x => exact h x

/-- A move does not change which alternatives an object holds. -/
theorem alternatives_movedFrom (n : ℕ) (t : Ty) (x : Val) :
    Γ.alternatives n t (Γ.movedFrom t x) = Γ.alternatives n t x := by
  induction n generalizing t x with
  | zero => rfl
  | succ n ih =>
    have hmembers : (∀ u e, t ≠ .expected u e) →
        (∀ (i : ℕ) (u : Ty), (Γ.memberTypes t)[i]? = some u →
          (Γ.movedFrom t x).items[i]? = x.items[i]?.map (Γ.movedFrom u)) →
          Γ.alternatives (n + 1) t (Γ.movedFrom t x) = Γ.alternatives (n + 1) t x := by
      intro ht hmoved
      rw [alternatives_succ ht, alternatives_succ ht]
      exact congrArg _ (memberKeys_congr fun i u hu => alternatives_map (ih u) (hmoved i u hu))
    have hnone : ∀ {xs : List Ty} {p : Prop} [Decidable p] {i : ℕ} {u : Ty},
        (if p then [] else xs)[i]? = some u → xs[i]? = some u := by
      intro xs p _ i u hu
      split at hu
      · cases hu
      · exact hu
    cases t with
    | expected t e =>
      cases x with
      | alt i v =>
        by_cases hi : i = 1
        · subst hi
          exact congrArg Alternatives.value (ih t v)
        · have herror : ∀ z v : Val, Val.alt i z ≠ .alt 1 v := fun z v h => hi (Val.alt.inj h).1
          exact (alternatives_error (herror _) n).trans (alternatives_error (herror v) n).symm
      | _ => rfl
    | array t m =>
      cases x with
      | list xs =>
        refine hmembers (by nofun) fun i u hu => ?_
        obtain rfl := List.eq_of_mem_replicate (List.mem_of_getElem? (hnone hu))
        exact movedFromAll_getElem? u xs i
      | _ => rfl
    | pair a b =>
      cases x with
      | list xs =>
        exact hmembers (by nofun) fun i u hu => movedFromMany_getElem? (hnone hu) xs
      | _ => rfl
    | struct name =>
      cases x with
      | list xs =>
        exact hmembers (by nofun) fun i u hu => movedFromMany_getElem? (hnone hu) xs
      | _ => rfl
    | tuple ts =>
      cases x with
      | list xs => exact hmembers (by nofun) fun i u hu => movedFromMany_getElem? hu xs
      | _ => rfl
    | _ => exact alternatives_leaf (by nofun) rfl _ _ _

end Alternatives

/-! ### Leaves -/

section Leaves

variable {α β : Type} {S : Bytes → Bytes → Prop} {R : α → β → Prop} {n : ℕ} {x : α} {y : β}
  {tag : SpConfig} {notSkip : Bool}

theorem withBytes_agree (hS : ∀ s, S s s) (hxy : R x y) {bs : Bytes}
    {next : Bytes → Bytes → Decoded α} {next' : Bytes → Bytes → Decoded β}
    (h : ∀ b rest, b.length = n → (next b rest).Agree S R (next' b rest)) :
    (withBytes n x bs next).Agree S R (withBytes n y bs next') := by
  by_cases hlen : bs.length < n
  · rw [withBytes_of_lt hlen, withBytes_of_lt hlen]
    exact .fail hxy (hS _)
  · rw [withBytes, withBytes, read, if_neg hlen]
    exact h _ _ (List.length_take_of_le (not_lt.mp hlen))

theorem leaf_of_varint (h : isVarint tag t = true) :
    (∀ u e, t ≠ .expected u e) ∧ Γ.memberTypes t = [] := by
  cases t with
  | fundamental k => exact ⟨nofun, rfl⟩
  | varInt k => exact ⟨nofun, rfl⟩
  | _ => cases h

theorem deserializeVarintMember_agree (hS : ∀ s, S s s) (form : VarintForm) (x y : Val)
    (bs : Bytes) :
    (deserializeVarintMember notSkip tag form x bs).Agree S (fun _ _ => True)
      (deserializeVarintMember false tag form y bs) := by
  rw [deserializeVarintMember, deserializeVarintMember]
  split
  · exact .done trivial
  · rw [deserializeVarint, deserializeVarint]
    cases readVarint 10 0 0 bs with
    | value v rest => exact .done trivial
    | exhausted => exact .fail trivial (hS _)
    | tooLong rest => exact .fail trivial (hS rest)

theorem withLength_agree (hS : ∀ s, S s s) {w : ℕ} {x y : Val} {bs : Bytes}
    {next next' : ℕ → Bytes → Decoded Val} {skips : ℕ → Bytes → Bool}
    (hskips : notSkip = true → lengthSkips w bs skips = true)
    (h : ∀ size rest, (notSkip = true → skips (size + 1) rest = true) →
      (next (size + 1) rest).Agree S (fun _ _ => True) (next' (size + 1) rest)) :
    (withLength w x bs next).Agree S (fun _ _ => True) (withLength w y bs next') := by
  rw [withLength, withLength, withBytes, withBytes]
  rw [lengthSkips] at hskips
  cases hread : read w bs with
  | error code => exact .fail trivial (hS _)
  | ok p =>
    obtain ⟨b, rest⟩ := p
    rw [hread] at hskips
    dsimp only at hskips ⊢
    cases hb : ofLE b with
    | zero => exact .done trivial
    | succ size => exact h size rest fun hnot => by simpa [hb] using hskips hnot

/-- The varint members of a block. -/
theorem deserializeFastVarintHelper_agree (hS : ∀ s, S s s) {bits width i : ℕ} {ts : List Ty}
    {xs ys : List Val} (hkeys : memberKeys (Γ.alternatives n) ts xs =
      memberKeys (Γ.alternatives n) ts ys) (bs : Bytes) :
    (deserializeFastVarintHelper notSkip tag bits width i ts xs bs).Agree S
      (fun xs ys => memberKeys (Γ.alternatives n) ts xs = memberKeys (Γ.alternatives n) ts ys)
        (deserializeFastVarintHelper false tag bits width i ts ys bs) := by
  induction ts generalizing i xs ys bs with
  | nil => exact .done rfl
  | cons t ts ih =>
    obtain ⟨hhead, htail⟩ := memberKeys_cons hkeys
    rw [deserializeFastVarintHelper, deserializeFastVarintHelper]
    split
    · exact (ih htail bs).map fun xs ys h => congrArg₂ List.cons hhead h
    · rename_i f hform
      have hvarint : isVarint tag t = true := by rw [isVarint, hform]; rfl
      -- an integer holds no alternatives, so any two objects will do
      obtain ⟨hexpected, hleaf⟩ := leaf_of_varint (Γ := Γ) hvarint
      have hany := alternatives_leaf hexpected hleaf n
      have hone : (if bits.testBit i then deserializeOneFastVarint notSkip width f
          (xs.headD .null) bs else .done (xs.headD .null) bs).Agree S (fun _ _ => True)
          (if bits.testBit i then deserializeOneFastVarint false width f (ys.headD .null) bs
            else .done (ys.headD .null) bs) := by
        split
        · exact withBytes_agree hS trivial fun b rest _ => .done trivial
        · exact .done trivial
      refine hone.andThen (fun x y _ => congrArg₂ List.cons (hany x y) htail) ?_
      intro x y s _ _ _
      exact (ih htail s).map fun xs ys h => congrArg₂ List.cons (hany x y) h

theorem deserializeFastVarint_agree (hS : ∀ s, S s s) {ts : List Ty} {xs ys : List Val}
    (hkeys : memberKeys (Γ.alternatives n) ts xs = memberKeys (Γ.alternatives n) ts ys)
    (bs : Bytes) :
    (deserializeFastVarint notSkip tag ts xs bs).Agree S
      (fun xs ys => memberKeys (Γ.alternatives n) ts xs = memberKeys (Γ.alternatives n) ts ys)
        (deserializeFastVarint false tag ts ys bs) := by
  rw [deserializeFastVarint, deserializeFastVarint]
  dsimp only
  split
  · exact deserializeFastVarintHelper_agree hS hkeys bs
  · refine withBytes_agree (R := fun xs ys => memberKeys (Γ.alternatives n) ts xs =
      memberKeys (Γ.alternatives n) ts ys) hS hkeys fun b rest _ => ?_
    split
    · exact .fail hkeys (hS _)
    · exact deserializeFastVarintHelper_agree hS hkeys rest

end Leaves

/-! ### What a loop consumes -/

section Loops

variable {w f g n : ℕ} {dropped notSkip : Bool} {k m : Ty} {x y : Val} {bs : Bytes}

/-- The state of a failure matters where its code is dropped. -/
def sameIfDropped (dropped : Bool) (s s' : Bytes) : Prop := dropped = true → s = s'

theorem sameIfDropped_refl (s : Bytes) : sameIfDropped dropped s s := fun _ => rfl

variable (Γ) in
/-- Where depth `f` is enough to decode an object of type `t`, or to skip it, and the shortcuts are
right, depth `g` is enough to skip it, and consumes the same. -/
def SkipsWithin (w f g : ℕ) (dropped : Bool) (t : Ty) : Prop :=
  ∀ (notSkip : Bool) (tag : SpConfig) (x y : Val) (bs : Bytes),
    Γ.alternatives f t x = Γ.alternatives f t y →
      (Γ.wary f w dropped notSkip tag t x bs).Agree (sameIfDropped dropped)
        (fun x y => Γ.alternatives f t x = Γ.alternatives f t y)
        (Γ.deserializeOne g w false tag t y bs)

/-- There is nothing to look out for in an object representation. -/
theorem wary_of_trivial (htriv : Γ.isTrivialSerializable t = true) (tag : SpConfig) :
    Γ.wary (f + 1) w dropped notSkip tag t = Γ.deserializeOne (f + 1) w notSkip tag t := by
  funext x bs
  rw [wary, deserializeOne]
  cases t with
  | monostate | fundamental | enumeration => simp [shortcutsRight, deserializeStep]
  | array => simp [shortcutsRight, deserializeStep, htriv]
  | pair | struct => simp only [shortcutsRight, deserializeStep, deserializeClass,
      if_pos htriv]; simp
  | _ => simp [isTrivialSerializable, isTrivialSerializableIn] at htriv

/-- An object representation that is not there is not read. -/
theorem deserializeOne_of_lt (fuel : ℕ) (notSkip : Bool) (htriv : Γ.isTrivialSerializable t = true)
    (h : bs.length < (Γ.calculateTrivialSize t).total) (old : Val) :
    ∃ x, Γ.deserializeOne (fuel + 1) w notSkip SpConfig.DEFAULT t old bs =
      .fail .noBufferSpace x bs := by
  rw [deserializeOne]
  cases t with
  | monostate => exact absurd h (Nat.not_lt_zero _)
  | fundamental k | enumeration _ k => exact ⟨old, withBytes_of_lt h old _⟩
  | array t n =>
    rw [deserializeStep, if_pos htriv]
    exact ⟨old, withBytes_of_lt h old _⟩
  | pair a b =>
    rw [deserializeStep, deserializeClass, if_pos htriv]
    exact ⟨old, withBytes_of_lt h old _⟩
  | struct name =>
    rw [deserializeStep, deserializeClass, if_pos htriv]
    exact ⟨old, withBytes_of_lt h old _⟩
  | _ => simp [isTrivialSerializable, isTrivialSerializableIn] at htriv

/-- A block and the elements in it take the same. -/
theorem block_agree {o : Decoded Val} {first total : ℕ} (htakes : o.Takes .noBufferSpace total bs)
    (hshort : bs.length < first → ∃ x, o = .fail .noBufferSpace x bs) (hle : first ≤ total)
    (hskips : blockSkips dropped first total bs = true) (y : Val) :
    o.Agree (sameIfDropped dropped) (fun _ _ => True)
      (withBytes total y bs fun _ rest => .done y rest) := by
  by_cases hfirst : bs.length < first
  · obtain ⟨x, rfl⟩ := hshort hfirst
    rw [withBytes_of_lt (hfirst.trans_le hle)]
    exact .fail trivial (sameIfDropped_refl bs)
  · refine htakes.agree (withBytes_takes total y bs fun _ => y) fun hlt s s' hdropped => ?_
    rw [blockSkips, hdropped, Bool.not_true, Bool.false_or, decide_eq_true_eq] at hskips
    exact absurd hskips (not_or.mpr ⟨Nat.not_le.mpr hlt, hfirst⟩)

theorem deserializeSet_takes (htriv : Γ.isTrivialSerializable t = true) (fuel n : ℕ)
    (insert : Val → List Val → List Val) (value : Val) (xs : List Val) (bs : Bytes) :
    (deserializeSet (Γ.deserializeOne (fuel + 1) w true SpConfig.DEFAULT t) (Γ.movedFrom t) insert n
      value xs bs).Takes .noBufferSpace (n * (Γ.calculateTrivialSize t).total) bs := by
  induction n generalizing value xs bs with
  | zero =>
    rw [Nat.zero_mul]
    exact Outcome.takes_zero _ xs bs
  | succ n ih =>
    rw [Nat.succ_mul, Nat.add_comm (n * _), deserializeSet]
    exact (deserializeOne_takes fuel true htriv value bs).andThen _ fun x => ih _ _ _

/-- The object that a set moves from is as fit for the next element as one that is skipped into. -/
theorem deserializeSet_agree (h : Γ.SkipsWithin w f g dropped t)
    (insert : Val → List Val → List Val) (n : ℕ)
    (hxy : Γ.alternatives f t x = Γ.alternatives f t y) (xs : List Val) (bs : Bytes) :
    (deserializeSet (Γ.wary f w dropped true SpConfig.DEFAULT t) (Γ.movedFrom t) insert n x xs
      bs).Agree (sameIfDropped dropped) (fun _ _ => True)
        (again (Γ.deserializeOne g w false SpConfig.DEFAULT t) n y bs) := by
  induction n generalizing x y xs bs with
  | zero => exact .done trivial
  | succ n ih =>
    refine (h true SpConfig.DEFAULT x y bs hxy).andThen (fun _ _ _ => trivial) ?_
    intro x y s hxy _ _
    exact ih ((alternatives_movedFrom f t x).trans hxy) _ s

/-- Skipping a pair over and over, key by key and mapped value by mapped value. -/
theorem again_pair_succ {pair readKey readMapped : Into Errc Bytes Val}
    (hpair : ∀ a b bs, pair (.list [a, b]) bs = (each [readKey, readMapped] [a, b] bs).map .list)
    (n : ℕ) (a b : Val) (bs : Bytes) :
    again pair (n + 1) (.list [a, b]) bs =
      (readKey a bs).andThen (fun a => .list [a, b]) fun a s =>
        (readMapped b s).andThen (fun b => .list [a, b]) fun b s =>
          again pair n (.list [a, b]) s := by
  rw [again, hpair, each]
  dsimp only [List.headD_cons, List.tail_cons]
  cases readKey a bs with
  | done a s =>
    simp only [Outcome.andThen_done, each, List.headD_cons, List.tail_cons]
    cases readMapped b s <;> rfl
  | _ => rfl

/-- The entries of a map. A mapped value whose key was there is skipped while decoding too. -/
theorem deserializeMap_agree (hk : Γ.SkipsWithin w f g dropped k)
    (hm : Γ.SkipsWithin w f g dropped m) {pair : Into Errc Bytes Val}
    (hpair : ∀ a b bs, pair (.list [a, b]) bs =
      (each [Γ.deserializeOne g w false SpConfig.DEFAULT k,
        Γ.deserializeOne g w false SpConfig.DEFAULT m] [a, b] bs).map .list)
    (fill : MapFilling) {n : ℕ} {value a b : Val}
    (hvalue : Γ.alternatives f m value = Γ.alternatives f m (Γ.fresh m))
    (ha : Γ.alternatives f k a = Γ.alternatives f k (Γ.fresh k))
    (hb : Γ.alternatives f m b = Γ.alternatives f m (Γ.fresh m)) {es : List Val} {bs : Bytes}
    (hfit : keepEntriesFit (Γ.wary f w dropped true SpConfig.DEFAULT k (Γ.fresh k))
      (Γ.wary f w dropped true SpConfig.DEFAULT m (Γ.fresh m))
      (Γ.wary f w dropped false SpConfig.DEFAULT m) fill (Γ.asFresh f k) (Γ.asFresh f m) n value es
      bs = true) :
    (deserializeMap (Γ.wary f w dropped true SpConfig.DEFAULT k (Γ.fresh k))
      (Γ.wary f w dropped true SpConfig.DEFAULT m (Γ.fresh m))
      (Γ.wary f w dropped false SpConfig.DEFAULT m) fill n value es bs).Agree
        (sameIfDropped dropped) (fun _ _ => True) (again pair n (.list [a, b]) bs) := by
  induction n generalizing value a b es bs with
  | zero => exact .done trivial
  | succ n ih =>
    rw [again_pair_succ hpair, deserializeMap]
    refine (hk true SpConfig.DEFAULT _ a bs ha.symm).andThen (fun _ _ _ => trivial) ?_
    intro key a' s hkey hdone _
    rw [keepEntriesFit, hdone] at hfit
    dsimp only at hfit
    split
    · -- the key was there: its mapped value is read into the object that the next one is read into
      rename_i hholds
      rw [if_pos hholds] at hfit
      refine (hm false SpConfig.DEFAULT value b s (hvalue.trans hb.symm)).andThen
        (fun _ _ _ => trivial) ?_
      intro value' b' s' hmapped hdone' _
      rw [hdone'] at hfit
      cases n with
      | zero => exact .done trivial
      | succ n =>
        simp only [Bool.and_eq_true, asFresh, decide_eq_true_eq, Nat.succ_ne_zero, beq_iff_eq,
          Bool.or_eq_true, false_or] at hfit
        obtain ⟨⟨hkey', hvalue'⟩, hrest⟩ := hfit
        exact ih hvalue' (hkey.symm.trans hkey') (hmapped.symm.trans hvalue') hrest
    · -- a new key, with a new mapped value
      rename_i hholds
      rw [if_neg hholds] at hfit
      refine (hm true SpConfig.DEFAULT _ b s hb.symm).andThen (fun _ _ _ => trivial) ?_
      intro mapped b' s' hmapped hdone' _
      rw [hdone'] at hfit
      cases n with
      | zero => exact .done trivial
      | succ n =>
        simp only [Bool.and_eq_true, asFresh, decide_eq_true_eq, Nat.succ_ne_zero, beq_iff_eq,
          Bool.or_eq_true, false_or] at hfit
        obtain ⟨⟨hkey', hmapped'⟩, hrest⟩ := hfit
        exact ih hvalue (hkey.symm.trans hkey') (hmapped.symm.trans hmapped') hrest

end Loops

/-! ### One step -/

section Steps

variable {w f g n : ℕ} {dropped notSkip : Bool} {S : Bytes → Bytes → Prop} {k m : Ty} {x y : Val}
  {bs : Bytes} {kind : AssociativeKind} {tag : SpConfig}

theorem withPadding_zero (member : Into Errc Bytes Val) : withPadding member 0 = member := by
  funext x bs
  rw [withPadding]
  cases member x bs with
  | done y s => simp [withBytes, read]
  | _ => rfl

/-- A varint member is coded alike under two configs without fast coding. -/
theorem deserializeOne_congr_tag_of_slow (h : isVarint tag t = true →
      isEnableFastVarintCoding tag = false ∧ isVarint SpConfig.DEFAULT t = true) :
    Γ.deserializeOne f w notSkip tag t = Γ.deserializeOne f w notSkip SpConfig.DEFAULT t := by
  cases hvarint : isVarint tag t with
  | false => exact deserializeOne_congr_tag hvarint
  | true =>
    obtain ⟨hfast, hdefault⟩ := h hvarint
    cases f with
    | zero => rfl
    | succ f =>
      cases t with
      | varInt k =>
        funext item bs
        cases k <;> simp [deserializeOne, deserializeStep, varintForm, deserializeVarintMember,
          hfast]
      | fundamental k => simp [isVarint] at hdefault
      | _ => rfl

/-- The entry of a map whose pair splits is skipped as a key and a mapped value. -/
theorem deserializeClass_pair (htriv : ¬ Γ.isTrivialSerializable (.pair k m) = true)
    (hsplit : Γ.PairSplits k m) (a b : Val) (bs : Bytes) :
    Γ.deserializeClass (Γ.deserializeOne g w) false (.pair k m) (.list [a, b]) bs =
      (each [Γ.deserializeOne g w false SpConfig.DEFAULT k,
        Γ.deserializeOne g w false SpConfig.DEFAULT m] [a, b] bs).map .list := by
  rw [PairSplits, if_neg htriv] at hsplit
  rw [deserializeClass, if_neg htriv]
  split_ifs at hsplit ⊢ with hpadded
  · have hsum := Γ.paddingSize_tail_sum (t := .pair k m) rfl
    have hlen := Γ.paddingSize_tail_length (t := .pair k m) rfl
    rw [hsplit] at hsum
    obtain ⟨p, q, hpq⟩ := List.length_eq_two.mp hlen
    rw [hpq] at hsum ⊢
    obtain ⟨rfl, rfl⟩ : p = 0 ∧ q = 0 := by simpa using hsum
    simp only [getTypes, List.zipWith_cons_cons, List.zipWith_nil_right, withPadding_zero,
      Val.items_list]
  · simp only [getTypes, List.map_cons, List.map_nil,
      deserializeOne_congr_tag_of_slow (hsplit k (by simp)),
      deserializeOne_congr_tag_of_slow (hsplit m (by simp))]
    split
    · rename_i hfast
      -- in fast mode there is no varint member
      have hnone : ∀ u ∈ [k, m], varintForm (Γ.getParentTag (.pair k m)) u = none := by
        intro u hu
        by_contra hne
        have := (hsplit u hu (by rw [isVarint, Option.isSome_iff_ne_none]; exact hne)).1
        simp [hfast] at this
      have hforms : varintForms (Γ.getParentTag (.pair k m)) [k, m] = [] := by
        simp [varintForms, hnone]
      simp only [deserializeFastVarint, hforms, List.length_nil, if_true,
        deserializeFastVarintHelper, hnone k (by simp), hnone m (by simp), Outcome.map_done,
        Outcome.andThen_done, Val.items_list, List.headD_cons, List.tail_cons]
    · rfl

theorem readImage_agree (hS : ∀ s, S s s) (ht : ∀ u e, t ≠ .expected u e)
    (hleaf : Γ.memberTypes t = []) (notSkip' : Bool) (size n : ℕ) (x y : Val)
    (bs : Bytes) :
    (readImage notSkip size x bs).Agree S (fun x y => Γ.alternatives n t x = Γ.alternatives n t y)
      (readImage notSkip' size y bs) := by
  have hany := alternatives_leaf ht hleaf n
  exact withBytes_agree (R := fun x y => Γ.alternatives n t x = Γ.alternatives n t y) hS (hany x y)
    fun b rest _ => .done (hany _ _)

/-- The elements of a sequence container. -/
theorem deserializeElements_agree {kind : ContainerKind} (hread : Γ.SkipsWithin w f g dropped t)
    {size : ℕ} (hskips : notSkip = true →
      Γ.elementsSkip (Γ.wary f w dropped) f kind t size bs = true) (x y : Val) :
    (Γ.deserializeElements (Γ.wary f w dropped) notSkip kind t x size bs).Agree
      (sameIfDropped dropped) (fun _ _ => True)
        (Γ.deserializeElements (Γ.deserializeOne g w) false kind t y size bs) := by
  rw [deserializeElements, deserializeElements]
  rw [elementsSkip] at hskips
  split
  · exact withBytes_agree sameIfDropped_refl trivial fun b rest _ => .done trivial
  · rename_i hblock
    rw [if_neg Bool.false_ne_true]
    split
    · rename_i hnot
      rw [Bool.eq_false_iff.mpr hblock, Bool.false_or] at hskips
      subst hnot
      refine (appendNew_agree_again (R := fun x y => Γ.alternatives f t x =
        Γ.alternatives f t y) (I := fun y => Γ.alternatives f t y =
        Γ.alternatives f t (Γ.fresh t)) (fun y s hy => ?_) ?_ (hskips rfl) rfl).map
          fun _ _ _ => trivial
      · exact hread true SpConfig.DEFAULT _ y s hy.symm
      · exact fun x y hfit hxy => hxy.symm.trans (of_decide_eq_true hfit)
    · exact (again_agree (fun x y s hxy => hread notSkip SpConfig.DEFAULT x y s hxy) size rfl
        bs).map fun _ _ _ => trivial

/-- The elements of a set. -/
theorem deserializeKeys_agree (hread : Γ.SkipsWithin w f g dropped t) {size : ℕ}
    (hskips : notSkip = true → Γ.keysSkip dropped t (size + 1) bs = true) (x y : Val) :
    (Γ.deserializeKeys (Γ.wary f w dropped) notSkip kind t x (size + 1) bs).Agree
      (sameIfDropped dropped) (fun _ _ => True)
        (Γ.deserializeKeys (Γ.deserializeOne g w) false kind t y (size + 1) bs) := by
  rw [deserializeKeys, deserializeKeys, if_neg Bool.false_ne_true]
  split
  · rename_i hnot
    subst hnot
    by_cases htriv : Γ.isTrivialSerializable t = true
    · -- the skip takes the keys as one block
      rw [if_pos htriv]
      have hkeys := hskips rfl
      rw [keysSkip, htriv, Bool.not_true, Bool.false_or, Bool.and_eq_true,
        decide_eq_true_eq] at hkeys
      obtain ⟨hmono, hblock⟩ := hkeys
      have hsize : (Γ.calculateTrivialSize t).total = Γ.sizeof t := by
        cases t <;> first | rfl | exact absurd rfl hmono
      cases f with
      | zero => exact .tooDeep
      | succ f =>
        rw [wary_of_trivial htriv]
        have htakes := deserializeSet_takes (w := w) htriv f (size + 1) (Γ.emplace kind t id)
          (Γ.fresh t) [] bs
        rw [hsize] at htakes
        refine block_agree (htakes.map _) (fun hlt => ?_) (Nat.le_mul_of_pos_left _ size.succ_pos)
          hblock y
        obtain ⟨z, hz⟩ := deserializeOne_of_lt (w := w) f true htriv (hsize.symm ▸ hlt) (Γ.fresh t)
        exact ⟨_, by rw [deserializeSet, hz, Outcome.andThen_fail, Outcome.map_fail]⟩
    · rw [if_neg htriv]
      exact (deserializeSet_agree hread _ (size + 1) rfl [] bs).map fun _ _ _ => trivial
  · split
    · exact withBytes_agree sameIfDropped_refl trivial fun b rest _ => .done trivial
    · exact (again_agree (fun x y s hxy => hread notSkip SpConfig.DEFAULT x y s hxy) (size + 1) rfl
        bs).map fun _ _ _ => trivial

/-- The entries of a map. -/
theorem deserializeEntries_agree (hpair : Γ.SkipsWithin w f (g + 1) dropped (.pair k m))
    (hk : Γ.SkipsWithin w f g dropped k) (hm : Γ.SkipsWithin w f g dropped m) {size : ℕ}
    (hskips : notSkip = true →
      Γ.entriesSkip (Γ.wary f w dropped) f dropped kind k m x (size + 1) bs = true) (y : Val) :
    (Γ.deserializeEntries (Γ.wary f w dropped) notSkip kind k m x (size + 1) bs).Agree
      (sameIfDropped dropped) (fun _ _ => True)
        (Γ.deserializeEntries (Γ.deserializeOne (g + 1) w) false kind k m y (size + 1) bs) := by
  rw [deserializeEntries, deserializeEntries, if_neg Bool.false_ne_true]
  split
  · rename_i hnot
    subst hnot
    have hentries := hskips rfl
    rw [entriesSkip, Bool.and_eq_true, decide_eq_true_eq] at hentries
    obtain ⟨hsplit, hright⟩ := hentries
    by_cases htriv : Γ.isTrivialSerializable (.pair k m) = true
    · -- the skip takes the entries as one block, in which a pair has no padding
      rw [if_pos htriv] at hright ⊢
      have hboth : Γ.isTrivialSerializable k = true ∧ Γ.isTrivialSerializable m = true := by
        simpa using htriv
      cases f with
      | zero => exact .tooDeep
      | succ f =>
        rw [wary_of_trivial hboth.1, wary_of_trivial hboth.2, wary_of_trivial hboth.2]
        have htakes := deserializeMap_takes (w := w) hboth.1 hboth.2 f (size + 1)
          (Γ.mapFilling kind k m) (Γ.fresh m) (Γ.oldEntries kind k m x) bs
        rw [PairSplits, if_pos htriv] at hsplit
        rw [← hsplit] at htakes
        have hpad := le_alignUp (Γ.sizeof k) (alignIn Γ.layouts m)
        have hle := Γ.le_sizeof_pair k m
        have hbytes := Γ.calculateTrivialSize_le_sizeof k
        have hbytes' := Γ.calculateTrivialSize_le_sizeof m
        have hfirst : Γ.sizeof k ≤ Γ.sizeof (.pair k m) := by omega
        refine block_agree (htakes.map _) (fun hlt => ?_)
          (hfirst.trans (Nat.le_mul_of_pos_left _ size.succ_pos)) hright y
        have hshort : bs.length < (Γ.calculateTrivialSize k).total := by omega
        obtain ⟨z, hz⟩ := deserializeOne_of_lt (w := w) f true hboth.1 hshort
          (Γ.fresh k)
        exact ⟨_, by rw [deserializeMap, hz, Outcome.andThen_fail, Outcome.map_fail]⟩
    · rw [if_neg htriv] at hright ⊢
      refine (?_ : Outcome.Agree _ (fun _ _ => True) _ _).map fun _ _ _ => trivial
      rw [fresh, if_neg htriv]
      exact deserializeMap_agree hk hm (fun a b bs => deserializeClass_pair htriv hsplit a b bs) _
        rfl rfl rfl hright
  · split
    · exact withBytes_agree sameIfDropped_refl trivial fun b rest _ => .done trivial
    · exact (again_agree (fun x y s hxy => hpair notSkip SpConfig.DEFAULT x y s hxy) (size + 1) rfl
        bs).map fun _ _ _ => trivial

theorem withPadding_agree {α : Type} {F G : Into Errc Bytes Val} {key : Val → α} (hS : ∀ s, S s s)
    (h : ∀ x y s, key x = key y → (F x s).Agree S (fun x y => key x = key y) (G y s)) (padding : ℕ)
    (x y : Val) (bs : Bytes) (hxy : key x = key y) :
    (withPadding F padding x bs).Agree S (fun x y => key x = key y)
      (withPadding G padding y bs) := by
  refine (h x y bs hxy).andThen (fun _ _ h => h) fun x y s hxy _ _ => ?_
  exact withBytes_agree (R := fun x y => key x = key y) hS hxy fun b rest _ => .done hxy

theorem deserializeClass_agree (hclass : isClass t = true)
    (hread : ∀ u, Γ.SkipsWithin w f g dropped u)
    (hxy : Γ.alternatives (f + 1) t x = Γ.alternatives (f + 1) t y) (bs : Bytes) :
    (Γ.deserializeClass (Γ.wary f w dropped) notSkip t x bs).Agree (sameIfDropped dropped)
      (fun x y => Γ.alternatives (f + 1) t x = Γ.alternatives (f + 1) t y)
        (Γ.deserializeClass (Γ.deserializeOne g w) false t y bs) := by
  have hexpected : ∀ u e, t ≠ .expected u e := by
    rintro u e rfl
    cases hclass
  rw [deserializeClass, deserializeClass]
  by_cases htriv : Γ.isTrivialSerializable t = true
  · rw [if_pos htriv, if_pos htriv]
    have hleaf : Γ.memberTypes t = [] := by rw [memberTypes_class hclass, if_pos htriv]
    exact readImage_agree sameIfDropped_refl hexpected hleaf _ _ _ x y bs
  · have htypes : Γ.memberTypes t = Γ.getTypes t := by
      rw [memberTypes_class hclass, if_neg htriv]
    rw [alternatives_succ_iff hexpected] at hxy
    rw [htypes] at hxy
    rw [if_neg htriv, if_neg htriv]
    have hdone : ∀ xs ys : List Val, memberKeys (Γ.alternatives f) (Γ.getTypes t) xs =
        memberKeys (Γ.alternatives f) (Γ.getTypes t) ys →
          Γ.alternatives (f + 1) t (.list xs) = Γ.alternatives (f + 1) t (.list ys) := by
      intro xs ys h
      rw [alternatives_succ_iff hexpected, htypes]
      exact h
    split
    · -- each member with the padding behind it
      have hzip : ((Γ.getTypes t).zip (Γ.paddingSize t).tail).map Prod.fst = Γ.getTypes t :=
        List.map_fst_zip (Γ.paddingSize_tail_length hclass).ge
      rw [← hzip, memberKeys_map, memberKeys_map] at hxy
      rw [← List.map_uncurry_zip_eq_zipWith, ← List.map_uncurry_zip_eq_zipWith]
      refine (each_agree (fun p _ x y s hkey => ?_) hxy bs).map fun xs ys hkeys => ?_
      · exact withPadding_agree sameIfDropped_refl (hread p.1 notSkip SpConfig.DEFAULT) p.2 x y s
          hkey
      · refine hdone xs ys ?_
        rw [← hzip, memberKeys_map, memberKeys_map]
        exact hkeys
    · refine Outcome.Agree.andThen (R := fun xs ys =>
        memberKeys (Γ.alternatives f) (Γ.getTypes t) xs =
          memberKeys (Γ.alternatives f) (Γ.getTypes t) ys) ?_ hdone ?_
      · split
        · exact deserializeFastVarint_agree sameIfDropped_refl hxy bs
        · exact .done hxy
      · intro xs ys s h _ _
        exact (each_agree (fun u _ x y s h => hread u notSkip (Γ.getParentTag t) x y s h) h
          s).map hdone

/-- What follows a flag, or the index of a variant. The code of its failure is dropped. -/
theorem flagged_agree {S : Bytes → Bytes → Prop} {c : Val → Val} {R : Val → Val → Prop}
    (hread : Γ.SkipsWithin w f g true u) {v v' : Val}
    (hv : Γ.alternatives f u v = Γ.alternatives f u v')
    (hc : ∀ v v', Γ.alternatives f u v = Γ.alternatives f u v' → R (c v) (c v')) (bs : Bytes) :
    (((Γ.wary f w true notSkip SpConfig.DEFAULT u v bs).map c).dropCode).Agree S R
      (((Γ.deserializeOne g w false SpConfig.DEFAULT u v' bs).map c).dropCode) := by
  -- where the code is dropped, both stop at the same place
  have heq : ∀ s s' : Bytes, sameIfDropped true s s' → s = s' := fun s s' hs => hs rfl
  have hsame := (hread notSkip SpConfig.DEFAULT v v' bs hv).mono heq fun _ _ h => h
  exact (hsame.map hc).dropCode

/-- Where the wary reader does not give up, an object is skipped as it is decoded. -/
theorem skipsWithin (hfuel : 2 * f ≤ g) (dropped : Bool) (t : Ty) :
    Γ.SkipsWithin w f g dropped t := by
  induction f generalizing g dropped t with
  | zero => exact fun _ _ _ _ _ _ => .tooDeep
  | succ f ih =>
    obtain ⟨g, rfl⟩ : ∃ g', g = g' + 1 := ⟨g - 1, by omega⟩
    have hread : ∀ dropped u, Γ.SkipsWithin w f g dropped u := fun dropped u =>
      ih (by omega) dropped u
    have hS : ∀ s : Bytes, sameIfDropped dropped s s := sameIfDropped_refl
    intro notSkip tag x y bs hxy
    have hleaf : (∀ u e, t ≠ .expected u e) → Γ.memberTypes t = [] →
        ∀ {o o' : Decoded Val}, o.Agree (sameIfDropped dropped) (fun _ _ => True) o' →
          o.Agree (sameIfDropped dropped)
            (fun x y => Γ.alternatives (f + 1) t x = Γ.alternatives (f + 1) t y) o' :=
      fun ht hnone o o' hagree => hagree.mono (fun _ _ hs => hs)
        fun x y _ => alternatives_leaf ht hnone _ x y
    rw [wary, deserializeOne]
    dsimp only
    split
    · exact .tooDeep
    rename_i hright
    have hskips : notSkip = true →
        Γ.shortcutsRight (Γ.wary f w (dropped || dropsCode t)) f w dropped x bs t = true := by
      rintro rfl
      simpa using hright
    cases t with
    | trivialView t => exact readImage_agree hS (by simp) rfl _ _ _ x y bs
    | compatible t v => exact .done hxy
    | monostate => exact .done hxy
    | varInt k =>
      refine hleaf (by simp) rfl ?_
      rw [deserializeStep, deserializeStep]
      split
      · exact deserializeVarintMember_agree hS _ x y bs
      · exact .done trivial
    | fundamental k =>
      refine hleaf (by simp) rfl ?_
      rw [deserializeStep, deserializeStep]
      split
      · exact deserializeVarintMember_agree hS _ x y bs
      · exact withBytes_agree hS trivial fun b rest _ => .done trivial
    | enumeration name k => exact readImage_agree hS (by simp) rfl _ _ _ x y bs
    | uniquePtr t | optional t =>
      -- behind the flag the code of a failure is dropped, so nothing says where it stopped
      refine hleaf (by simp) rfl (withBytes_agree hS trivial fun b rest _ => ?_)
      rw [dropsCode, Bool.or_true]
      split
      · exact .done trivial
      · exact flagged_agree (hread true t) rfl (fun _ _ _ => trivial) rest
    | polymorphic base =>
      refine hleaf (by simp) rfl (withBytes_agree hS trivial fun b rest _ => ?_)
      simp only [dropsCode, Bool.or_false]
      split
      · exact .done trivial
      split
      · exact .fail trivial (hS _)
      · rename_i t _
        exact (hread dropped t notSkip SpConfig.DEFAULT _ _ _ rfl).map fun _ _ _ => trivial
    | array t n =>
      simp only [deserializeStep, dropsCode, Bool.or_false]
      split
      · rename_i htriv
        exact readImage_agree hS (by simp) (by rw [memberTypes, if_pos htriv]) _ _ _ x y bs
      · rename_i htriv
        have htypes : Γ.memberTypes (.array t n) = List.replicate n t := by
          rw [memberTypes, if_neg htriv]
        rw [alternatives_succ_iff (by simp), htypes] at hxy
        rw [← List.map_replicate, ← List.map_replicate]
        refine (each_agree (fun u _ x y s h => hread dropped u notSkip SpConfig.DEFAULT x y s h) hxy
          bs).map fun xs ys h => ?_
        rw [alternatives_succ_iff (by simp), htypes]
        exact h
    | container kind t =>
      simp only [dropsCode, Bool.or_false] at hskips ⊢
      refine hleaf (by simp) rfl (withLength_agree hS hskips fun size rest hsize => ?_)
      exact deserializeElements_agree (hread dropped t) hsize x y
    | set kind t =>
      simp only [dropsCode, Bool.or_false] at hskips ⊢
      refine hleaf (by simp) rfl (withLength_agree hS hskips fun size rest hsize => ?_)
      exact deserializeKeys_agree (hread dropped t) hsize x y
    | map kind k m =>
      simp only [dropsCode, Bool.or_false] at hskips ⊢
      refine hleaf (by simp) rfl (withLength_agree hS hskips fun size rest hsize => ?_)
      -- the skip of a map goes through pairs, and is one deeper
      cases g with
      | zero => exact absurd hfuel (by omega)
      | succ g =>
        exact deserializeEntries_agree (hread dropped _) (ih (by omega) dropped k)
          (ih (by omega) dropped m) hsize y
    | tuple ts =>
      simp only [deserializeStep, dropsCode, Bool.or_false]
      rw [alternatives_succ_iff (by simp)] at hxy
      refine (each_agree (fun u _ x y s h => hread dropped u notSkip SpConfig.DEFAULT x y s h) hxy
        bs).map fun xs ys h => ?_
      rw [alternatives_succ_iff (by simp)]
      exact h
    | expected t e =>
      -- a value is read into the one that the object holds, an error into a new one
      rw [deserializeStep, deserializeStep, dropsCode, Bool.or_true]
      refine withBytes_agree (R := fun x y => Γ.alternatives (f + 1) (.expected t e) x =
        Γ.alternatives (f + 1) (.expected t e) y) hS hxy fun b rest _ => ?_
      split
      · exact flagged_agree (hread true e) rfl (fun _ _ _ => rfl) rest
      · obtain ⟨v, v', rfl, rfl, hv⟩ | ⟨hx, hy⟩ := alternatives_expected_eq hxy
        · exact flagged_agree (hread true t) hv (fun _ _ h => congrArg Alternatives.value h) rest
        · split
          · exact absurd rfl (hx _)
          · exact .throws
    | variant ts =>
      refine hleaf (by simp) rfl (withBytes_agree hS trivial fun b rest hb => ?_)
      rw [dropsCode, Bool.or_true]
      split
      · exact .fail trivial (hS rest)
      · exact flagged_agree (hread true _) rfl (fun _ _ _ => trivial) rest
    | pair a b =>
      simp only [dropsCode, Bool.or_false]
      exact deserializeClass_agree rfl (hread dropped) hxy bs
    | struct name =>
      simp only [dropsCode, Bool.or_false]
      exact deserializeClass_agree rfl (hread dropped) hxy bs

end Steps

/-! ### Every payload -/

section Payloads

variable {w : ℕ} {k m : Ty} {bs : Bytes} {kind : AssociativeKind}

theorem SameVerdict.eq_of_done {x y : Val} {rest rest' : Bytes} (h : Γ.SameVerdict w t bs)
    (fuel fuel' : ℕ) (hfuel : 2 * fuel ≤ fuel')
    (hdecode : Γ.deserializeOne fuel w true SpConfig.DEFAULT t (Γ.fresh t) bs = .done x rest)
    (hskip : Γ.deserializeOne fuel' w false SpConfig.DEFAULT t (Γ.fresh t) bs = .done y rest') :
    rest = rest' := by
  obtain ⟨y', hy'⟩ := ((h fuel fuel' hfuel (by rw [hdecode]; nofun)).1 rest).mp ⟨x, hdecode⟩
  rw [hskip] at hy'
  exact (Outcome.done.inj hy').2.symm

/-- In a map of padded pairs there is a payload that is not. -/
theorem not_sameVerdict_map (htriv : Γ.isTrivialSerializable (.pair k m) = true)
    (hsplit : ¬ Γ.PairSplits k m) (kind : AssociativeKind) (hw : 0 < w) :
    ∃ bs, ¬ Γ.SameVerdict w (.map kind k m) bs := by
  have hboth : Γ.isTrivialSerializable k = true ∧ Γ.isTrivialSerializable m = true := by
    simpa using htriv
  have hone : 1 < 256 ^ w := Nat.one_lt_pow hw.ne' (by decide)
  rw [PairSplits, if_pos htriv] at hsplit
  generalize hsum : (Γ.calculateTrivialSize k).total + (Γ.calculateTrivialSize m).total = size
    at hsplit
  -- one entry, and a buffer that is long enough for both
  let bs : Bytes := List.replicate (Γ.sizeof (.pair k m) + size) 0
  have hlen : bs.length = Γ.sizeof (.pair k m) + size := List.length_replicate
  refine ⟨toLE w 1 ++ bs, fun h => ?_⟩
  obtain ⟨x, hx⟩ := ((deserializeMap_takes (w := w) hboth.1 hboth.2 0 1 (Γ.mapFilling kind k m)
    (Γ.fresh m) (if Γ.hasOrderRecord kind k m then enterOrderRecord [] else []) bs).map
      Val.list).exists_done (by rw [hlen, hsum]; omega)
  obtain ⟨y, hy⟩ := (withBytes_takes (1 * Γ.sizeof (.pair k m)) (Γ.fresh (.map kind k m)) bs
    fun _ => Γ.fresh (.map kind k m)).exists_done (by rw [hlen]; omega)
  have hrest := h.eq_of_done 2 4 le_rfl
    (by rw [deserializeOne, deserializeStep, withLength_append hone, if_neg one_ne_zero,
      deserializeEntries, if_pos rfl]; exact hx)
    (by rw [deserializeOne, deserializeStep, withLength_append hone, if_neg one_ne_zero,
      deserializeEntries, if_neg Bool.false_ne_true, if_pos htriv]; exact hy)
  have hdrop := congrArg List.length hrest
  rw [List.length_drop, List.length_drop, hlen, hsum, one_mul, one_mul] at hdrop
  omega

/-- Nor in a set of `monostate`s, which take no bytes, but are skipped as one byte each. -/
theorem not_sameVerdict_set (kind : AssociativeKind) (hw : 0 < w) :
    ∃ bs, ¬ Γ.SameVerdict w (.set kind .monostate) bs := by
  have hone : 1 < 256 ^ w := Nat.one_lt_pow hw.ne' (by decide)
  refine ⟨toLE w 1 ++ [0], fun h => ?_⟩
  have hrest := h.eq_of_done 2 4 le_rfl
    (by rw [deserializeOne, deserializeStep, withLength_append hone, if_neg one_ne_zero,
      deserializeKeys, if_pos rfl]; rfl)
    (by rw [deserializeOne, deserializeStep, withLength_append hone, if_neg one_ne_zero,
      deserializeKeys, if_neg Bool.false_ne_true,
      if_pos Γ.isTrivialSerializable_monostate]; rfl)
  cases hrest

/-- A payload in which the shortcuts are right is skipped as it is decoded. -/
theorem sameVerdict_of_skipsAlike (h : Γ.SkipsAlike w t bs) : Γ.SameVerdict w t bs := by
  intro fuel fuel' hfuel decoded skipped hdeep
  have hwary := h fuel hdeep
  have hdecoded := Γ.wary_agree_deserializeOne fuel w false true SpConfig.DEFAULT t (Γ.fresh t) bs
  have hskipped := skipsWithin (Γ := Γ) (w := w) hfuel false t true SpConfig.DEFAULT (Γ.fresh t)
    (Γ.fresh t) bs rfl
  exact ⟨fun rest => (hdecoded.done_iff hwary rest).symm.trans (hskipped.done_iff hwary rest),
    fun code => (hdecoded.fail_iff hwary code).symm.trans (hskipped.fail_iff hwary code),
    hskipped.ne_tooDeep hwary⟩

end Payloads

/-- A tuple of a map from `int32_t` to vectors of optionals, a `std::map<int8_t, int32_t>`, an
optional set of `int32_t` and a vector of `expected`s. -/
def tupleOfLoops : Ty :=
  .tuple
    [.map ⟨false, false⟩ (.fundamental .int32) (.container .vector (.optional (.fundamental .int32))),
      mapOfInt8, .optional (.set ⟨false, false⟩ (.fundamental .int32)),
      .container .vector (.expected (.fundamental .int32) (.fundamental .int32))]

/-- Two entries with the key `7`, no entry, the elements `3` and `4`, and a value and an error. -/
def bytesOfLoops : Bytes :=
  [2, 7, 0, 0, 0, 1, 0, 7, 0, 0, 0, 1, 1, 5, 0, 0, 0, 0, 1, 2, 3, 0, 0, 0, 4, 0, 0, 0,
    2, 1, 6, 0, 0, 0, 0, 9, 0, 0, 0]

/-- The padded pairs of the second map are not met, and an error only at the end. -/
theorem sameVerdict_bytesOfLoops : plain.SameVerdict 1 tupleOfLoops bytesOfLoops := by
  refine sameVerdict_of_skipsAlike fun fuel hdeep => ?_
  match fuel with
  | 0 | 1 | 2 | 3 | 4 => exact absurd rfl hdeep
  | n + 5 =>
    have hdone : ∃ x, plain.wary (n + 5) 1 false true SpConfig.DEFAULT tupleOfLoops
        (plain.fresh tupleOfLoops) bytesOfLoops = .done x [] := ⟨_, rfl⟩
    obtain ⟨x, hx⟩ := hdone
    rw [hx]
    nofun

/-- An entry of key and mapped value is skipped with three bytes between them. -/
theorem not_sameVerdict_mapOfInt8 : plain.existCompatibleMember mapOfInt8 = false ∧
    ¬ plain.SameVerdict 1 mapOfInt8 [1, 1, 2, 0, 0, 0] := by
  refine ⟨by decide +kernel, fun h => ?_⟩
  have hskip : plain.deserializeOne 4 1 false SpConfig.DEFAULT mapOfInt8 (plain.fresh mapOfInt8)
      [1, 1, 2, 0, 0, 0] = .fail .noBufferSpace (.list []) [1, 2, 0, 0, 0] := rfl
  have hdecode : plain.deserializeOne 2 1 true SpConfig.DEFAULT mapOfInt8 (plain.fresh mapOfInt8)
      [1, 1, 2, 0, 0, 0] = .done (.list [.entry (.bytes [1]) (.bytes [2, 0, 0, 0])]) [] := rfl
  obtain ⟨y, hy⟩ := ((h 2 4 le_rfl (by rw [hdecode]; nofun)).1 []).mp ⟨_, hdecode⟩
  rw [hskip] at hy
  cases hy

end TypeEnv

end Yalantinglibs.StructPack
