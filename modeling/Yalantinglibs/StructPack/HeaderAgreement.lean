import Yalantinglibs.StructPack.MessageSize
import Yalantinglibs.StructPack.Unpacker
import Yalantinglibs.StructPack.ReadBack

/-!
# When reader and writer agree on the header

The writer asks the first argument whether there is a metainfo byte, the reader asks the
tuple of all arguments, and with a hash it believes the hash. This file computes what the
reader makes of a written header.

## Main results

* `deserializeMetainfo_of_enabled` — a header with a hash is always read back
* `deserializeMetainfo_serializeTo_iff` — exactly when the reader finds the payload, the
  width class and the length of the message
-/

set_option autoImplicit false

namespace Yalantinglibs.StructPack

open ByteCodec

namespace TypeEnv

variable (Γ : TypeEnv)

/-- The writer puts a metainfo byte into the header. -/
def WritesMetainfo (conf : SpConfig) (ts : List Ty) (xs : List Val) : Prop :=
  Γ.checkHasMetainfo conf (firstArg ts) = true ∨ Γ.HasLongContainer ts xs

/-- What the reader has to find in a header, where `s` follows the message. -/
def FindsHeader (conf : SpConfig) (ts : List Ty) (xs : List Val) (s : Bytes)
    (m : Metainfo) : Prop :=
  let info := Γ.getSerializeRuntimeInfo conf ts xs
  let w := 2 ^ Γ.packerWidthClass ts info
  m.rest = Γ.serializeMany w SpConfig.DEFAULT ts xs ++ Γ.serializeVersions w ts xs ++ s ∧
    m.sizeType = Γ.packerWidthClass ts info ∧
    (Γ.existCompatibleMember (getArgsType ts) = true →
      m.length = (Γ.serializeTo conf ts xs info).length)

section

variable {Γ} {conf : SpConfig} {ts : List Ty} {xs : List Val}

theorem writesMetainfo_iff :
    Γ.writesMetainfo conf (Γ.messageWidthClass ts xs = 0) ts = true ↔
      Γ.WritesMetainfo conf ts xs := by
  rw [writesMetainfo_eq, WritesMetainfo, ← messageWidthClass_ne_zero_iff]
  simp

/-- The number written as the hash. -/
private theorem hashHead_lt (Γ : TypeEnv) (conf : SpConfig) (ts : List Ty) (isDefault : Bool) :
    (Γ.calculateHashHead conf ts ||| if isDefault then 0 else 1) < 256 ^ 4 := by
  have hlt := Γ.getTypesCode_lt (getArgsType ts)
  have heven := Γ.getTypesCode_even (getArgsType ts)
  have hhead : Γ.calculateHashHead conf ts < 2 ^ 32 := by
    rw [calculateHashHead]
    split <;> omega
  refine Nat.or_lt_two_pow hhead ?_
  split <;> omega

private theorem hashHead_half (isDefault : Bool) :
    (Γ.calculateHashHead conf ts ||| if isDefault then 0 else 1) / 2 =
      Γ.getTypesCode (getArgsType ts) / 2 := by
  have heven := Γ.getTypesCode_even (getArgsType ts)
  have h : ∀ n m : ℕ, (n ||| m) / 2 ^ 1 = n / 2 ^ 1 ||| m / 2 ^ 1 := fun n m => by
    rw [← Nat.shiftRight_eq_div_pow, ← Nat.shiftRight_eq_div_pow, ← Nat.shiftRight_eq_div_pow,
      Nat.shiftRight_or_distrib]
  rw [pow_one] at h
  have hbit : (if isDefault then 0 else 1) / 2 = 0 := by split <;> rfl
  rw [h, hbit, Nat.or_zero, calculateHashHead]
  split <;> omega

/-- What follows the metainfo byte. -/
def afterMetainfo (Γ : TypeEnv) (conf : SpConfig) (ts : List Ty)
    (info : SerializeBufferSize) : Bytes :=
  (if Γ.existCompatibleMember (getArgsType ts) then serializeLength info else []) ++
    if Γ.checkIfAddTypeLiteral conf (getArgsType ts) then
      Γ.getTypeLiteral (getArgsType ts) ++ [0]
    else []

/-- The length field is wide enough for the length. -/
theorem len_lt (hd : Γ.checkIfDisableHashHead conf (getArgsType ts) = false)
    (hc : Γ.existCompatibleMember (getArgsType ts) = true)
    (hlen : (Γ.getSerializeRuntimeInfo conf ts xs).len < 2 ^ 64) :
    (Γ.getSerializeRuntimeInfo conf ts xs).len <
      256 ^ 2 ^ lengthClass (Γ.lenBeforeLength conf ts xs) := by
  rw [getSerializeRuntimeInfo_of_enabled hd] at hlen ⊢
  simp only [lengthFieldSize, hc, if_true] at hlen ⊢
  generalize Γ.lenBeforeLength conf ts xs = L at hlen ⊢
  rw [lengthClass] at hlen ⊢
  split_ifs at hlen ⊢ with h₁ h₂
  · exact h₁
  · exact h₂
  · exact hlen

/-- The length field is read back. -/
private theorem deserializeCompatible_append
    (hd : Γ.checkIfDisableHashHead conf (getArgsType ts) = false)
    (hlen : (Γ.getSerializeRuntimeInfo conf ts xs).len < 2 ^ 64) (s : Bytes) :
    deserializeCompatible ((Γ.getSerializeRuntimeInfo conf ts xs).metainfo &&& 0b11)
        ((if Γ.existCompatibleMember (getArgsType ts) then
          serializeLength (Γ.getSerializeRuntimeInfo conf ts xs) else []) ++ s) =
      .ok (if Γ.existCompatibleMember (getArgsType ts) then
        (Γ.getSerializeRuntimeInfo conf ts xs).len else 0, s) := by
  have hbits := (metainfo_bits _ (Γ.messageWidthClass_le ts xs)
    (if Γ.checkIfAddTypeLiteral conf (getArgsType ts) then 0b100 else 0) (by split <;> simp)
    (if Γ.existCompatibleMember (getArgsType ts) then
      lengthClass (Γ.lenBeforeLength conf ts xs) else 0)
    (by split; exacts [lengthClass_le _, Nat.zero_le _])).2.2.1
  cases hc : Γ.existCompatibleMember (getArgsType ts) with
  | false =>
    simp only [hc, Bool.false_eq_true, if_false] at hbits ⊢
    rw [getSerializeRuntimeInfo_of_enabled hd]
    simp only [hc, Bool.false_eq_true, if_false, hbits]
    rfl
  | true =>
    have hclass : (Γ.getSerializeRuntimeInfo conf ts xs).metainfo &&& 0b11 =
        lengthClass (Γ.lenBeforeLength conf ts xs) := by
      simp only [hc, if_true] at hbits
      rw [getSerializeRuntimeInfo_of_enabled hd]
      simp only [hc, if_true, hbits]
    have hne : lengthClass (Γ.lenBeforeLength conf ts xs) ≠ 0 := by
      rcases lengthClass_cases (Γ.lenBeforeLength conf ts xs) with h | h | h <;> simp [h]
    rw [hclass, deserializeCompatible, if_neg hne, if_pos rfl, if_pos rfl,
      serializeLength_eq hd hc, read_append (toLE_length _ _)]
    simp only [Except.map, ofLE_toLE (len_lt hd hc hlen)]

/-- The metainfo byte, the length field and the literal are read back. -/
theorem deserializeMetainfoByte_append
    (hd : Γ.checkIfDisableHashHead conf (getArgsType ts) = false)
    (hlen : (Γ.getSerializeRuntimeInfo conf ts xs).len < 2 ^ 64) (s : Bytes) :
    Γ.deserializeMetainfoByte (getArgsType ts)
        (UInt8.ofNat (Γ.getSerializeRuntimeInfo conf ts xs).metainfo ::
          (Γ.afterMetainfo conf ts (Γ.getSerializeRuntimeInfo conf ts xs) ++ s)) =
      .ok ⟨if Γ.existCompatibleMember (getArgsType ts) then
          (Γ.getSerializeRuntimeInfo conf ts xs).len else 0, Γ.messageWidthClass ts xs, s⟩ := by
  have hmeta : (Γ.getSerializeRuntimeInfo conf ts xs).metainfo =
      Γ.messageWidthClass ts xs <<< 3 |||
        (if Γ.checkIfAddTypeLiteral conf (getArgsType ts) then 0b100 else 0) |||
        if Γ.existCompatibleMember (getArgsType ts) then
          lengthClass (Γ.lenBeforeLength conf ts xs) else 0 := by
    rw [getSerializeRuntimeInfo_of_enabled hd]
  obtain ⟨hcls, hlit, -, hbyte⟩ := metainfo_bits _ (Γ.messageWidthClass_le ts xs)
    (if Γ.checkIfAddTypeLiteral conf (getArgsType ts) then 0b100 else 0) (by split <;> simp)
    (if Γ.existCompatibleMember (getArgsType ts) then
      lengthClass (Γ.lenBeforeLength conf ts xs) else 0)
    (by split; exacts [lengthClass_le _, Nat.zero_le _])
  rw [← hmeta] at hcls hlit hbyte
  have hread : ofLE [UInt8.ofNat (Γ.getSerializeRuntimeInfo conf ts xs).metainfo] =
      (Γ.getSerializeRuntimeInfo conf ts xs).metainfo :=
    ofLE_toLE (w := 1) hbyte
  rw [deserializeMetainfoByte, ← List.singleton_append, read_append (n := 1) rfl]
  simp only [hread, afterMetainfo, List.append_assoc, deserializeCompatible_append hd hlen, hcls,
    hlit]
  cases hl : Γ.checkIfAddTypeLiteral conf (getArgsType ts) with
  | false => simp [Nat.shiftLeft_shiftRight]
  | true =>
    have hliteral : Γ.deserializeTypeLiteral (getArgsType ts)
        ((Γ.getTypeLiteral (getArgsType ts) ++ [0]) ++ s) = .ok s := by
      rw [deserializeTypeLiteral, read_append rfl]
      simp only [if_true]
    simp only [List.append_assoc, List.singleton_append] at hliteral
    simp [hliteral, Nat.shiftLeft_shiftRight]

/-- A header with a hash is read back, and tells whether there is a metainfo byte. -/
theorem deserializeMetainfo_of_enabled
    (hd : Γ.checkIfDisableHashHead conf (getArgsType ts) = false)
    (hlen : (Γ.getSerializeRuntimeInfo conf ts xs).len < 2 ^ 64) (isDefault : Bool) (s : Bytes) :
    Γ.deserializeMetainfo conf (getArgsType ts)
        (Γ.serializeMetainfo conf isDefault ts (Γ.getSerializeRuntimeInfo conf ts xs) ++ s) =
      .ok (if Γ.writesMetainfo conf isDefault ts then
        ⟨if Γ.existCompatibleMember (getArgsType ts) then
          (Γ.getSerializeRuntimeInfo conf ts xs).len else 0, Γ.messageWidthClass ts xs, s⟩
      else ⟨0, 0, s⟩) := by
  have hhash := ofLE_toLE (hashHead_lt Γ conf ts isDefault)
  rw [deserializeMetainfo, serializeMetainfo]
  simp only [hd, Bool.false_eq_true, if_false, List.append_assoc]
  rw [read_append (toLE_length _ _)]
  simp only [hhash, hashHead_half, ne_eq, not_true_eq_false, if_false]
  cases hw : Γ.writesMetainfo conf isDefault ts with
  | false =>
    have heven : (Γ.calculateHashHead conf ts ||| if isDefault then 0 else 1) % 2 = 0 := by
      rw [writesMetainfo, decide_eq_false_iff_not] at hw
      omega
    simp [heven]
  | true =>
    have hodd : (Γ.calculateHashHead conf ts ||| if isDefault then 0 else 1) % 2 = 1 := by
      rwa [writesMetainfo, decide_eq_true_eq] at hw
    have hbyte := deserializeMetainfoByte_append hd hlen s
    rw [afterMetainfo, List.append_assoc] at hbyte
    simp only [hodd, one_ne_zero, if_false, if_true, List.cons_append, List.append_assoc, hbyte]

/-- Without a hash, the metainfo byte is all there is. -/
theorem serializeMetainfo_of_disabled
    (hallowed : Γ.DisableHashHeadAllowed conf (getArgsType ts))
    (hd : Γ.checkIfDisableHashHead conf (getArgsType ts) = true) (isDefault : Bool) :
    Γ.serializeMetainfo conf isDefault ts (Γ.getSerializeRuntimeInfo conf ts xs) =
      if Γ.writesMetainfo conf isDefault ts then
        [UInt8.ofNat (Γ.messageWidthClass ts xs <<< 3)]
      else [] := by
  rw [serializeMetainfo, getSerializeRuntimeInfo_of_disabled hd]
  simp [hd, hallowed hd, checkIfAddTypeLiteral_of_disabled hd]

/-- A message with a hash and a metainfo byte is as long as computed, but for the `compatible`
members that are counted and not written. -/
theorem len_eq_of_enabled (h : Γ.HasTypes ts xs)
    (hd : Γ.checkIfDisableHashHead conf (getArgsType ts) = false)
    (hc : Γ.existCompatibleMember (getArgsType ts) = true)
    (hw : Γ.writesMetainfo conf (Γ.messageWidthClass ts xs = 0) ts = true) :
    (Γ.getSerializeRuntimeInfo conf ts xs).len =
      (Γ.serializeTo conf ts xs (Γ.getSerializeRuntimeInfo conf ts xs)).length +
        Γ.lostSize (2 ^ Γ.messageWidthClass ts xs) ts xs := by
  have hallowed : Γ.DisableHashHeadAllowed conf (getArgsType ts) := fun h => by simp [hd] at h
  have hM : Γ.checkHasMetainfo conf (getArgsType ts) = true := by simp [checkHasMetainfo, hc]
  have htotal := serializeTo_length conf h
  have hbefore := lenBeforeHash_eq conf h
  rw [serializeMetainfo_length hallowed, ← writesMetainfo_eq, hw] at htotal
  rw [getSerializeRuntimeInfo_of_enabled hd] at htotal ⊢
  simp only [hd, hM, Bool.true_or, Bool.false_eq_true, if_true, if_false, lenBeforeLength]
    at htotal hbefore ⊢
  omega

/-- The reader finds the payload, the width class and the length behind a written header
exactly when, without a hash, the writer puts a metainfo byte there if there is a container,
and, with a hash, it puts one there if the walk finds a `compatible` member, and none is inside
another or behind a pointer to a base class. -/
theorem deserializeMetainfo_serializeTo_iff (h : Γ.HasTypes ts xs)
    (hallowed : Γ.DisableHashHeadAllowed conf (getArgsType ts))
    (hlen : (Γ.getSerializeRuntimeInfo conf ts xs).len < 2 ^ 64) (s : Bytes) :
    (∃ m, Γ.deserializeMetainfo conf (getArgsType ts)
        (Γ.serializeTo conf ts xs (Γ.getSerializeRuntimeInfo conf ts xs) ++ s) = .ok m ∧
      Γ.FindsHeader conf ts xs s m) ↔
      if Γ.checkIfDisableHashHead conf (getArgsType ts) then
        (Γ.WritesMetainfo conf ts xs ↔ Γ.checkIfHasContainer (getArgsType ts) = true)
      else Γ.existCompatibleMember (getArgsType ts) = true →
        Γ.WritesMetainfo conf ts xs ∧ ¬ Γ.NestedCompatible ts xs ∧ ¬ Γ.HiddenCompatible ts xs := by
  rw [serializeTo, packerWidthClass_info, List.append_assoc, ← writesMetainfo_iff]
  simp only [FindsHeader, packerWidthClass_info]
  generalize hp : Γ.serializeMany (2 ^ Γ.messageWidthClass ts xs) SpConfig.DEFAULT ts xs ++
    Γ.serializeVersions (2 ^ Γ.messageWidthClass ts xs) ts xs ++ s = payload
  cases hd : Γ.checkIfDisableHashHead conf (getArgsType ts) with
  | false =>
    rw [deserializeMetainfo_of_enabled hd hlen]
    simp only [Except.ok.injEq, exists_eq_left', Bool.false_eq_true, if_false]
    cases hw : Γ.writesMetainfo conf (Γ.messageWidthClass ts xs = 0) ts with
    | false =>
      -- no byte: the length is taken to be `0`
      have hpos : 0 < (Γ.serializeTo conf ts xs (Γ.getSerializeRuntimeInfo conf ts xs)).length := by
        rw [serializeTo, serializeMetainfo, hd]
        simp only [Bool.false_eq_true, if_false, List.length_append, toLE_length]
        omega
      have hclass : Γ.messageWidthClass ts xs = 0 := by
        by_contra hne
        have := writesMetainfo_iff.mpr (.inr (messageWidthClass_ne_zero_iff.mp hne) :
          Γ.WritesMetainfo conf ts xs)
        simp [hw] at this
      simp only [hclass, Bool.false_eq_true, if_false, true_and, false_and, imp_false]
      constructor
      · intro hl hc
        exact hpos.ne (hl hc)
      · exact fun hc hc' => absurd hc' hc
    | true =>
      simp only [if_true, true_and]
      refine imp_congr_right fun hc => ?_
      rw [if_pos hc, len_eq_of_enabled h hd hc hw,
        ← (compatibleSizes_eq_add_lostSize (w := 2 ^ Γ.messageWidthClass ts xs) h).2]
      omega
  | true =>
    have hc := hallowed hd
    rw [serializeMetainfo_of_disabled hallowed hd, deserializeMetainfo]
    simp only [hd, hc, if_true, Bool.false_eq_true, false_imp_iff, and_true]
    cases hw : Γ.writesMetainfo conf (Γ.messageWidthClass ts xs = 0) ts <;>
      cases hcont : Γ.checkIfHasContainer (getArgsType ts)
    · have hclass : Γ.messageWidthClass ts xs = 0 := by simp [messageWidthClass, hcont]
      simp [hclass]
    · -- the first byte of the payload is taken for the metainfo byte
      simp only [Bool.false_eq_true, if_false, if_true, List.nil_append, false_iff,
        not_true_eq_false, iff_false, not_exists, not_and]
      intro m hm hrest
      cases hpay : payload with
      | nil => simp [read_of_lt, hpay, Except.map] at hm
      | cons b bs =>
        rw [hpay, ← List.singleton_append, read_append (n := 1) rfl] at hm
        obtain rfl : _ = m := Except.ok.inj hm
        exact absurd (congrArg List.length (hrest.trans hpay)) (by simp)
    · -- the metainfo byte is taken for the first byte of the payload
      simp
    · have hbits := (metainfo_bits _ (Γ.messageWidthClass_le ts xs) 0
        (by simp) 0 (by simp))
      simp only [Nat.or_zero] at hbits
      have hread : ofLE [UInt8.ofNat (Γ.messageWidthClass ts xs <<< 3)] =
          Γ.messageWidthClass ts xs <<< 3 := ofLE_toLE (w := 1) hbits.2.2.2
      refine iff_of_true ⟨⟨0, Γ.messageWidthClass ts xs, payload⟩, ?_, rfl, rfl⟩ (by simp)
      rw [if_pos rfl, if_pos rfl, read_append (n := 1) rfl]
      simp only [Except.map, hread, hbits.1, Nat.shiftLeft_shiftRight]

end

/-- The header of an `int` and a `string`, without any metainfo: the reader takes the first
byte of the `int` for a metainfo byte. -/
theorem not_findsHeader_oneAndEmpty :
    plain.HasTypes intAndString oneAndEmpty ∧
    plain.DisableHashHeadAllowed SpConfig.DISABLE_ALL_META_INFO (getArgsType intAndString) ∧
    ¬ ∃ m, plain.deserializeMetainfo SpConfig.DISABLE_ALL_META_INFO (getArgsType intAndString)
        (plain.serializeTo SpConfig.DISABLE_ALL_META_INFO intAndString oneAndEmpty
          (plain.getSerializeRuntimeInfo SpConfig.DISABLE_ALL_META_INFO intAndString
            oneAndEmpty)) = .ok m ∧
      plain.FindsHeader SpConfig.DISABLE_ALL_META_INFO intAndString oneAndEmpty [] m := by
  refine ⟨hasTypes_oneAndEmpty, fun _ => by decide, ?_⟩
  rintro ⟨m, hm, hrest, -⟩
  have hread : plain.deserializeMetainfo SpConfig.DISABLE_ALL_META_INFO (getArgsType intAndString)
      (plain.serializeTo SpConfig.DISABLE_ALL_META_INFO intAndString oneAndEmpty
        (plain.getSerializeRuntimeInfo SpConfig.DISABLE_ALL_META_INFO intAndString
          oneAndEmpty)) = .ok ⟨0, 0, [0, 0, 0, 0]⟩ := by
    decide +kernel
  obtain rfl : _ = m := Except.ok.inj (hread.symm.trans hm)
  revert hrest
  decide +kernel

/-- The size is that of `{5, "a", nullopt}`, `"hi"` and, behind a flag and a code, `{1, ""}`. -/
theorem calculatePayloadSize_threeArguments :
    accountAndShape.calculatePayloadSize SpConfig.DEFAULT threeTypes threeArguments =
      ⟨18, 3, 2⟩ := by
  have hshape : accountAndShape.calculateOneSize SpConfig.DEFAULT (.polymorphic 1)
      (.alt 0 (.list [.bytes [1, 0, 0, 0], .list []])) = ⟨9, 1, 0⟩ := by
    simp only [calculateOneSize, accountAndShape.dispatch_of_searchDerived searchDerived_shape]
    decide +kernel
  simp only [threeTypes, threeArguments, calculatePayloadSize, hshape]
  decide +kernel

/-- The header of a struct with two `compatible` members, a `string` and a pointer to a base class
is found, with the length of the message. -/
theorem findsHeader_threeArguments :
    ∃ m, accountAndShape.deserializeMetainfo SpConfig.DEFAULT (getArgsType threeTypes)
        (accountAndShape.serializeTo SpConfig.DEFAULT threeTypes threeArguments
          (accountAndShape.getSerializeRuntimeInfo SpConfig.DEFAULT threeTypes threeArguments) ++
            [7]) = .ok m ∧
      accountAndShape.FindsHeader SpConfig.DEFAULT threeTypes threeArguments [7] m := by
  refine (deserializeMetainfo_serializeTo_iff hasTypes_threeArguments (fun h => absurd h (by decide))
    ?_ [7]).mpr ?_
  · rw [getSerializeRuntimeInfo_of_enabled (by decide)]
    simp only [lengthFieldSize, lenBeforeLength, lenBeforeHash, messageWidthClass,
      calculatePayloadSize_threeArguments]
    decide +kernel
  · rw [if_neg (by decide)]
    refine fun _ => ⟨.inl (by decide +kernel), ?_, ?_⟩
    · rintro ⟨c, hc, v, hv, hne⟩
      rw [compatiblesMany_threeArguments, List.mem_pair] at hc
      obtain rfl | rfl := hc
      · cases hv
        exact hne rfl
      · cases hv
    · rw [HiddenCompatible, compatiblesMany_threeArguments, compatiblesMany_threeArguments, not_not]

end TypeEnv

end Yalantinglibs.StructPack
