import Yalantinglibs.StructPack.Destination

/-!
# Reading a member back

What it means that the payload of a value is read back, whatever object it is decoded into,
and what follows from it for the members of a class: under the config of the class, behind
the block of a fast varint struct, and with padding.

## Main definitions

* `TypeEnv.Reads` — the payload of a value is read back

## Main results

* `deserializeClass_yields` — an object of class type is read back if its members are
-/

set_option autoImplicit false

namespace Yalantinglibs.StructPack

open ByteCodec Decoding

namespace TypeEnv

variable (Γ : TypeEnv)

/-- The payload of a value is consumed, and decoded into the value in the objects that settle. -/
def Reads (E : Prop) (w : ℕ) (t : Ty) (v : Val) : Prop :=
  ∀ fuel : ℕ, v.height ≤ fuel → ∀ (old : Val) (s : Bytes),
    (Γ.deserializeOne fuel w true SpConfig.DEFAULT t old
      (Γ.serializeOne w SpConfig.DEFAULT t v ++ s)).Yields E (Γ.Settles t old v) v s

section Members

variable {Γ} {E : Prop} {w fuel : ℕ} {t : Ty} {v x : Val} {ts : List Ty} {xs olds : List Val}
  {notSkip : Bool} {tag : SpConfig}

/-- A member that is not coded as a varint is coded alike under every config. -/
theorem deserializeOne_congr_tag (h : isVarint tag t = false) :
    Γ.deserializeOne fuel w notSkip tag t = Γ.deserializeOne fuel w notSkip SpConfig.DEFAULT t := by
  cases fuel with
  | zero => rfl
  | succ fuel =>
    cases t with
    | fundamental k =>
      have hnone : varintForm tag (.fundamental k) = none := by simpa [isVarint] using h
      funext item bs
      simp [deserializeOne, deserializeStep, hnone]
    | varInt k => cases k <;> simp [isVarint, varintForm] at h
    | _ => rfl

/-- A varint member by itself; in fast mode its parent has read it. -/
theorem deserializeOne_varint {f : VarintForm} (hf : varintForm tag t = some f) (hx : Γ.HasTy t x)
    (hfuel : x.height ≤ fuel) (old : Val) (s : Bytes) :
    Γ.deserializeOne fuel w true tag t old (Γ.serializeOne w tag t x ++ s) =
      .done (if isEnableFastVarintCoding tag then old else x) s := by
  obtain ⟨fuel, rfl⟩ := Nat.exists_eq_succ_of_ne_zero (x.height_pos.trans_le hfuel).ne'
  have hws := wellSized_of_varintForm hf hx
  have hbytes := hx.eq_bytes_of_varint (show isVarint tag t = true by simp [isVarint, hf])
  have key : deserializeVarintMember true tag f old
      (serializeVarintMember tag f x.repr ++ s) =
        .done (if isEnableFastVarintCoding tag then old else x) s := by
    rw [deserializeVarintMember, serializeVarintMember]
    split
    · rfl
    · rw [deserializeVarint_append hws, ← hbytes]
      rfl
  cases t with
  | fundamental k => simpa [deserializeOne, deserializeStep, serializeOne, hf] using key
  | varInt k => simpa [deserializeOne, deserializeStep, serializeOne, hf] using key
  | _ => simp [varintForm] at hf

/-- One member of a class, decoded into `o`. -/
theorem deserializeOne_member (tag : SpConfig) (hR : Γ.Reads E w t x) (hx : Γ.HasTy t x)
    (hfuel : x.height ≤ fuel) (o : Val) (s : Bytes) :
    (Γ.deserializeOne fuel w true tag t o (Γ.serializeOne w tag t x ++ s)).Yields E
      (if isEnableFastVarintCoding tag && isVarint tag t then o = x else Γ.Settles t o x) x s := by
  cases hf : varintForm tag t with
  | none =>
    have hvar : isVarint tag t = false := by simp [isVarint, hf]
    rw [deserializeOne_congr_tag hvar, serializeOne_congr_tag (by simp [hvar])]
    simpa [hvar] using hR fuel hfuel o s
  | some f =>
    have hvar : isVarint tag t = true := by simp [isVarint, hf]
    have hsettles : Γ.Settles t o x := by
      cases t with
      | fundamental | varInt => simp [Settles]
      | _ => simp [varintForm] at hf
    rw [deserializeOne_varint hf hx hfuel, hvar, Bool.and_true]
    cases isEnableFastVarintCoding tag with
    | true => exact Outcome.yields_done (fun h => h) fun _ h => h
    | false => exact Outcome.yields_done (fun _ => rfl) fun _ _ => hsettles

/-- The members of a class as they are when the loop over them starts. -/
def enteredMembers (tag : SpConfig) (ts : List Ty) (olds xs : List Val) : List Val :=
  if isEnableFastVarintCoding tag then blockItems true tag ts olds xs else olds

theorem headD_enteredMembers :
    (enteredMembers tag (t :: ts) olds (x :: xs)).headD default =
      if isEnableFastVarintCoding tag && (isVarint tag t && ofLE x.repr ≠ 0) then x
      else olds.headD default := by
  rw [enteredMembers]
  cases isEnableFastVarintCoding tag <;> rfl

theorem tail_enteredMembers :
    (enteredMembers tag (t :: ts) olds (x :: xs)).tail =
      enteredMembers tag ts olds.tail xs := by
  rw [enteredMembers, enteredMembers]
  cases isEnableFastVarintCoding tag <;> rfl

/-- The members of a class, one after the other. -/
theorem each_yields_serializeMany (tag : SpConfig) (hlen : ts.length = xs.length)
    (hR : ∀ p ∈ ts.zip xs, Γ.Reads E w p.1 p.2) (hty : ∀ p ∈ ts.zip xs, Γ.HasTy p.1 p.2)
    (hfuel : Val.heightAll xs ≤ fuel) (olds : List Val) (s : Bytes) :
    (each (ts.map (Γ.deserializeOne fuel w true tag)) (enteredMembers tag ts olds xs)
      (Γ.serializeMany w tag ts xs ++ s)).Yields E (Γ.SettlesMany tag ts olds xs) xs s := by
  induction ts generalizing xs olds with
  | nil =>
    obtain rfl := List.eq_nil_of_length_eq_zero hlen.symm
    exact Outcome.yields_done (fun _ => rfl) fun _ _ => trivial
  | cons t ts ih =>
    obtain ⟨x, xs, rfl⟩ := List.exists_cons_of_length_eq_add_one hlen.symm
    rw [Val.heightAll, max_le_iff] at hfuel
    have ih := ih (Nat.succ.inj hlen) (fun p hp => hR p (by simp [hp]))
      (fun p hp => hty p (by simp [hp])) hfuel.2 olds.tail
    have hx : Γ.HasTy t x := hty (t, x) (by simp)
    rw [← tail_enteredMembers (t := t) (x := x)] at ih
    rw [List.map_cons, serializeMany, List.append_assoc]
    refine (each_yields_cons (deserializeOne_member tag (hR (t, x) (by simp)) hx hfuel.1 _ _)
      ih).congr ?_
    rw [headD_enteredMembers, SettlesMany]
    -- in fast mode the member comes from the block, unless it is zero
    cases isEnableFastVarintCoding tag <;> cases isVarint tag t <;>
      by_cases hzero : ofLE x.repr = 0 <;> simp [hzero]

/-- The members of a padded class, each with the padding behind it. -/
theorem each_yields_serializePadded {ps : List ℕ} (hlen : ts.length = xs.length)
    (hps : ps.length = ts.length)
    (hR : ∀ p ∈ ts.zip xs, Γ.Reads E w p.1 p.2) (hfuel : Val.heightAll xs ≤ fuel)
    (olds : List Val) (s : Bytes) :
    (each (List.zipWith
        (fun t p => withPadding (Γ.deserializeOne fuel w true SpConfig.DEFAULT t) p) ts ps) olds
      (Γ.serializePadded w ts ps xs ++ s)).Yields E (Γ.SettlesMany SpConfig.DEFAULT ts olds xs) xs
      s := by
  induction ts generalizing xs ps olds with
  | nil =>
    obtain rfl := List.eq_nil_of_length_eq_zero hlen.symm
    exact Outcome.yields_done (fun _ => rfl) fun _ _ => trivial
  | cons t ts ih =>
    obtain ⟨x, xs, rfl⟩ := List.exists_cons_of_length_eq_add_one hlen.symm
    obtain ⟨p, ps, rfl⟩ := List.exists_cons_of_length_eq_add_one hps
    rw [Val.heightAll, max_le_iff] at hfuel
    have ih := ih (Nat.succ.inj hlen) (Nat.succ.inj hps) (fun p hp => hR p (by simp [hp]))
      hfuel.2 olds.tail
    rw [serializePadded, List.append_assoc, List.append_assoc]
    have hfirst := hR (t, x) (by simp) fuel hfuel.1 (olds.headD default)
      (List.replicate p 0 ++ (Γ.serializePadded w ts ps xs ++ s))
    refine (each_yields_cons (hfirst.followed _ fun y => ?_) ih).congr ?_
    · exact withBytes_append List.length_replicate _ _
    · simp only [SettlesMany, isEnableFastVarintCoding_default, Bool.false_and, Bool.false_eq_true,
        if_false, default_val]

/-- An object of class type that is not trivially serializable. -/
theorem deserializeClass_yields (hclass : isClass t = true)
    (htriv : Γ.isTrivialSerializable t = false) (hlen : (Γ.getTypes t).length = xs.length)
    (hR : ∀ p ∈ (Γ.getTypes t).zip xs, Γ.Reads E w p.1 p.2)
    (hty : ∀ p ∈ (Γ.getTypes t).zip xs, Γ.HasTy p.1 p.2) (hfuel : Val.heightAll xs ≤ fuel)
    (old : Val) (s : Bytes) :
    (Γ.deserializeClass (Γ.deserializeOne fuel w) true t old
      (Γ.serializeClass t xs (Γ.serializePadded w (Γ.getTypes t) (Γ.paddingSize t).tail xs)
        (fun tag => Γ.serializeMany w tag (Γ.getTypes t) xs) ++ s)).Yields E
      (Γ.SettlesMany (Γ.memberTag t) (Γ.getTypes t) old.items xs) (.list xs) s := by
  rw [deserializeClass, serializeClass, memberTag, htriv, if_neg Bool.false_ne_true]
  split
  · exact (each_yields_serializePadded hlen (Γ.paddingSize_tail_length hclass) hR hfuel _ s).map
      Val.list_injective
  · have hmany := each_yields_serializeMany (Γ.getParentTag t) hlen hR hty
      hfuel old.items s
    rw [enteredMembers] at hmany
    simp only []
    split <;> rename_i hfast
    · rw [if_pos hfast] at hmany
      rw [List.append_assoc, deserializeFastVarint_append true hty hlen, Outcome.andThen_done]
      exact hmany.map Val.list_injective
    · rw [if_neg hfast] at hmany
      rw [List.nil_append, Outcome.andThen_done]
      exact hmany.map Val.list_injective

end Members

end TypeEnv

end Yalantinglibs.StructPack
