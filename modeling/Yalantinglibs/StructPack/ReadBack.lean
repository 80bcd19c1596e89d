import Yalantinglibs.StructPack.Parts

/-!
# Reading back bytes, varints and blocks

What the reader makes of the leaves of a value as the writer writes them: object
representations, lengths, varints, blocks of trivially copyable elements, and the block of a
fast varint struct.

## Main definitions

* `blockItems` — the members of a struct after its fast varint block was read

## Main results

* `deserializeVarint_append`, `deserializeFastVarint_append`
-/

set_option autoImplicit false

namespace Yalantinglibs.StructPack

open ByteCodec Decoding

namespace TypeEnv

section Leaves

variable {α : Type} {n w : ℕ} {b s bs : Bytes} {item : Val} {notSkip : Bool}

theorem read_append (h : b.length = n) (s : Bytes) : read n (b ++ s) = .ok (b, s) := by
  subst h
  rw [read, if_neg (by simp), List.take_left, List.drop_left]

theorem read_of_lt (h : bs.length < n) : read n bs = .error .noBufferSpace := by
  rw [read, if_pos h]

theorem withBytes_append (h : b.length = n) (item : α) (next : Bytes → Bytes → Decoded α) :
    withBytes n item (b ++ s) next = next b s := by
  rw [withBytes, read_append h]

theorem withBytes_of_lt (h : bs.length < n) (item : α) (next : Bytes → Bytes → Decoded α) :
    withBytes n item bs next = .fail .noBufferSpace item bs := by
  rw [withBytes, read_of_lt h]

/-- The flag of an optional, or the index of a variant. -/
theorem withBytes_cons (b : UInt8) (item : α) (next : Bytes → Bytes → Decoded α) :
    withBytes 1 item (b :: s) next = next [b] s :=
  withBytes_append (b := [b]) rfl item next

theorem readImage_append (h : b.length = n) :
    readImage notSkip n item (b ++ s) = .done (if notSkip then .bytes b else item) s := by
  rw [readImage, withBytes_append h]

/-- A length is read back; nothing is done for a length of `0`. -/
theorem withLength_append (h : n < 256 ^ w) (next : ℕ → Bytes → Decoded Val) :
    withLength w item (toLE w n ++ s) next = if n = 0 then .done item s else next n s := by
  rw [withLength, withBytes_append (toLE_length _ _), ofLE_toLE h]

/-- The code of a class is read back. -/
theorem readId_append (id : UInt32) (s : Bytes) : readId (toLE 4 id.toNat ++ s) = (id, s) := by
  rw [readId, read_append (toLE_length _ _)]
  simp only [ofLE_toLE (w := 4) id.toNat_lt, UInt32.ofNat_toNat]

theorem deserializeVarint_append {f : VarintForm} (hm : VarintMember.WellSized (f, b)) :
    deserializeVarint notSkip f item (serializeVarint f b ++ s) =
      .done (if notSkip then .bytes b else item) s := by
  obtain ⟨hsize, hlen⟩ := hm
  rw [deserializeVarint, serializeVarint,
    readVarint_varintBytes (varintWord_lt hsize hlen) s]
  simp only [varintValue_varintWord hsize hlen]

/-- A block of objects is taken apart again. -/
theorem splitBlock_flatMap {size : ℕ} {xs : List Val}
    (h : ∀ x ∈ xs, ∃ b, x = .bytes b ∧ b.length = size) :
    splitBlock size xs.length (xs.flatMap Val.repr) = xs := by
  induction xs with
  | nil => rfl
  | cons x xs ih =>
    obtain ⟨b, rfl, rfl⟩ := h x List.mem_cons_self
    rw [List.length_cons, splitBlock, List.flatMap_cons, Val.repr_bytes, List.take_left,
      List.drop_left, ih fun y hy => h y (List.mem_cons_of_mem _ hy)]

end Leaves

/-! ### The block of a fast varint struct -/

/-- The members of a struct behind its fast varint block: a varint member that is not zero is
the one that was written, the others are as they were. -/
def blockItems (notSkip : Bool) (tag : SpConfig) : List Ty → List Val → List Val → List Val
  | t :: ts, olds, x :: xs =>
    (if notSkip && isVarint tag t && ofLE x.repr ≠ 0 then x else olds.headD .null) ::
      blockItems notSkip tag ts olds.tail xs
  | _, _, _ => []

section Block

variable {Γ : TypeEnv} {tag : SpConfig} {ts : List Ty} {xs : List Val}

theorem varintForms_length (tag : SpConfig) (hlen : ts.length = xs.length) :
    (varintForms tag ts).length = (varintMembers tag ts xs).length := by
  induction ts generalizing xs with
  | nil => simp [varintForms, varintMembers]
  | cons t ts ih =>
    cases xs with
    | nil => simp at hlen
    | cons x xs =>
      have ih := ih (Nat.succ.inj hlen)
      rw [varintForms] at ih ⊢
      rw [varintMembers]
      cases hf : varintForm tag t <;> simp [hf, ih]

theorem mem_varintForms_of_mem {m : VarintMember} (hm : m ∈ varintMembers tag ts xs) :
    m.1 ∈ varintForms tag ts := by
  induction ts generalizing xs with
  | nil => simp [varintMembers] at hm
  | cons t ts ih =>
    cases xs with
    | nil => simp [varintMembers] at hm
    | cons x xs =>
      rw [varintMembers] at hm
      rw [varintForms]
      cases hf : varintForm tag t with
      | none =>
        rw [hf] at hm
        simpa [hf, varintForms] using ih hm
      | some f =>
        rw [hf] at hm
        rcases List.mem_cons.mp hm with rfl | hm
        · simp [hf]
        · have := ih hm
          rw [varintForms] at this
          simp only [List.filterMap_cons, hf]
          exact List.mem_cons_of_mem _ this

/-- The members of the block, one after the other. -/
private theorem deserializeFastVarintHelper_append (notSkip : Bool) (tag : SpConfig)
    (ms : List VarintMember)
    (hty : ∀ p ∈ ts.zip xs, Γ.HasTy p.1 p.2) (hlen : ts.length = xs.length)
    (hms : ∀ m ∈ varintMembers tag ts xs, m ∈ ms) {bits i : ℕ}
    (hbits : ∀ j m, (varintMembers tag ts xs)[j]? = some m → bits.testBit (i + j) = m.nonzero)
    (olds : List Val) (s : Bytes) :
    deserializeFastVarintHelper notSkip tag bits (2 ^ fastVarintWidth ms) i ts olds
        (((varintMembers tag ts xs).filter VarintMember.nonzero).flatMap
          (cutMember (fastVarintWidth ms)) ++ s) =
      .done (blockItems notSkip tag ts olds xs) s := by
  induction ts generalizing xs i olds with
  | nil => simp [varintMembers, deserializeFastVarintHelper, blockItems]
  | cons t ts ih =>
    cases xs with
    | nil => simp at hlen
    | cons x xs =>
      have hty' : ∀ p ∈ ts.zip xs, Γ.HasTy p.1 p.2 := fun p hp => hty p (by simp [hp])
      have hx : Γ.HasTy t x := hty (t, x) (by simp)
      rw [deserializeFastVarintHelper, varintMembers, blockItems]
      rw [varintMembers] at hms hbits
      cases hf : varintForm tag t with
      | none =>
        rw [hf] at hms hbits
        have hnot : isVarint tag t = false := by simp [isVarint, hf]
        simp only [ih hty' (Nat.succ.inj hlen) hms hbits, Outcome.map_done, hnot, Bool.and_false,
          Bool.false_and, Bool.false_eq_true, if_false]
      | some f =>
        rw [hf] at hms hbits
        have hvar : isVarint tag t = true := by simp [isVarint, hf]
        have hbit := hbits 0 (f, x.repr) rfl
        rw [Nat.add_zero] at hbit
        have hrest : ∀ j m, (varintMembers tag ts xs)[j]? = some m →
            bits.testBit (i + 1 + j) = m.nonzero := by
          intro j m hj
          rw [Nat.add_assoc, Nat.add_comm 1 j]
          exact hbits (j + 1) m hj
        have htail := ih hty' (Nat.succ.inj hlen)
          (fun m hm => hms m (List.mem_cons_of_mem _ hm)) hrest olds.tail
        have hws : VarintMember.WellSized (f, x.repr) := wellSized_of_varintForm hf hx
        simp only [hbit, hvar, Bool.and_true]
        cases hnz : VarintMember.nonzero (f, x.repr) with
        | false =>
          have hzero : ofLE x.repr = 0 := by simpa [VarintMember.nonzero] using hnz
          simp only [Bool.false_eq_true, if_false, List.filter_cons, hnz, Outcome.andThen_done,
            htail, Outcome.map_done, hzero, ne_eq, not_true_eq_false, decide_false,
            Bool.and_false]
        | true =>
          have hne : ofLE x.repr ≠ 0 := by simpa [VarintMember.nonzero] using hnz
          have hmem : (f, x.repr) ∈ ms := hms _ List.mem_cons_self
          have hcut : (cutMember (fastVarintWidth ms) (f, x.repr)).length =
              min (2 ^ fastVarintWidth ms) f.size := by
            rw [cutMember, List.length_take, hws.2]
            exact min_eq_left (min_le_right _ _)
          simp only [if_true, List.filter_cons, hnz, List.flatMap_cons, List.append_assoc,
            deserializeOneFastVarint, withBytes_append hcut, extendLow_cutMember hmem hnz hws,
            Outcome.andThen_done, htail, Outcome.map_done, ← hx.eq_bytes_of_varint hvar, hne,
            ne_eq, not_false_eq_true, decide_true, Bool.and_true]

/-- The block of a struct is read back. -/
theorem deserializeFastVarint_append (notSkip : Bool) (hty : ∀ p ∈ ts.zip xs, Γ.HasTy p.1 p.2)
    (hlen : ts.length = xs.length) (olds : List Val) (s : Bytes) :
    deserializeFastVarint notSkip tag ts olds (fastVarintBytes (varintMembers tag ts xs) ++ s) =
      .done (blockItems notSkip tag ts olds xs) s := by
  have hforms := varintForms_length tag hlen
  have hms : ∀ m ∈ varintMembers tag ts xs, m.WellSized := varintMembers_wellSized hty
  rw [deserializeFastVarint]
  generalize hmembers : varintMembers tag ts xs = ms at hforms hms
  by_cases hcnt : (varintForms tag ts).length = 0
  · obtain rfl : ms = [] := List.eq_nil_of_length_eq_zero (hforms ▸ hcnt)
    have hbits : ∀ j m, (varintMembers tag ts xs)[j]? = some m →
        (0 : ℕ).testBit (0 + j) = m.nonzero := by simp [hmembers]
    have := deserializeFastVarintHelper_append notSkip tag [] hty hlen (by simp [hmembers])
      hbits olds s
    have hwidth : fastVarintWidth [] = 0 := rfl
    simpa [hcnt, hmembers, fastVarintBytes, hwidth] using this
  · have hne : ms ≠ [] := by
      rintro rfl
      exact hcnt hforms
    have hbitslen : (fastVarintBits ms).length = ms.length + 2 := by simp [fastVarintBits]
    have hbound : bitmap (fastVarintBits ms) < 256 ^ bitsetSize ms.length := by
      have := bitmap_lt (fastVarintBits ms)
      rw [hbitslen] at this
      refine this.trans_le ?_
      rw [show (256 : ℕ) = 2 ^ 8 from rfl, ← pow_mul, bitsetSize]
      exact Nat.pow_le_pow_right (by decide) (by omega)
    have hbit : ∀ j m, (varintMembers tag ts xs)[j]? = some m →
        (bitmap (fastVarintBits ms)).testBit (0 + j) = m.nonzero := by
      intro j m hj
      rw [hmembers] at hj
      obtain ⟨hlt, rfl⟩ := List.getElem?_eq_some_iff.mp hj
      rw [Nat.zero_add, testBit_bitmap, fastVarintBits, List.getD_eq_getElem?_getD,
        List.getElem?_append_left (by simpa using hlt)]
      simp [hlt]
    have hlow : (bitmap (fastVarintBits ms)).testBit ms.length =
        (fastVarintWidth ms).testBit 0 := by
      rw [testBit_bitmap, fastVarintBits, List.getD_eq_getElem?_getD,
        List.getElem?_append_right (by simp)]
      simp
    have hhigh : (bitmap (fastVarintBits ms)).testBit (ms.length + 1) =
        (fastVarintWidth ms).testBit 1 := by
      rw [testBit_bitmap, fastVarintBits, List.getD_eq_getElem?_getD,
        List.getElem?_append_right (by simp)]
      simp
    have hwidth : ((fastVarintWidth ms).testBit 0).toNat + 2 * ((fastVarintWidth ms).testBit 1).toNat =
        fastVarintWidth ms := by
      have hle := fastVarintWidth_le ms
      generalize fastVarintWidth ms = k at hle
      have : ∀ k ≤ 3, (k.testBit 0).toNat + 2 * (k.testBit 1).toNat = k := by decide
      exact this k hle
    have hok : ¬ (fastVarintWidth ms = 3 ∧ ∀ f ∈ varintForms tag ts, f.size ≠ 8) := by
      rintro ⟨h3, hall⟩
      obtain ⟨m, hm, h8⟩ := exists_size_eq_of_width hms h3
      exact hall _ (mem_varintForms_of_mem (hmembers ▸ hm)) h8
    rw [hforms] at hcnt
    simp only [hforms, hcnt, if_false, fastVarintBytes, if_neg hne, List.append_assoc]
    rw [withBytes_append (toLE_length _ _)]
    simp only [ofLE_toLE hbound, hlow, hhigh, hwidth, if_neg hok]
    have := deserializeFastVarintHelper_append notSkip tag ms hty hlen
      (fun m hm => hmembers ▸ hm) hbit olds s
    rwa [hmembers] at this

end Block

end TypeEnv

end Yalantinglibs.StructPack
