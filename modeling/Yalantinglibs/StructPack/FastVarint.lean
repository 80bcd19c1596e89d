import Yalantinglibs.StructPack.Varint
import Mathlib.Data.List.GetD

/-!
# The block of a fast varint struct

In a struct with `USE_FAST_VARINT` the varint members are written together: a bitmap of the
nonzero members followed by two bits for a common width, then the nonzero members cut to that
width.

## Main definitions

* `VarintMember` — a varint member and its object representation
* `fastVarintWidth` — the class of the common width
* `fastVarintBytes`, `calculateFastVarintSize` — the block and its size
* `extendLow` — how a member cut to a width is widened again

## Main results

* `fastVarintBytes_length` — the size is exact
* `extendLow_cutMember` — a member is restored from the bytes it was cut to
-/

set_option autoImplicit false

namespace Yalantinglibs.StructPack

open ByteCodec

/-- A varint member and its object representation. -/
abbrev VarintMember := VarintForm × Bytes

namespace VarintMember

/-- `get_varint_value(item) != 0`. -/
def nonzero (m : VarintMember) : Bool := ofLE m.2 ≠ 0

/-- The number that the width has to hold: a negative `v` counts as `-(v + 1)`. -/
def magnitude (m : VarintMember) : ℕ :=
  if m.1.signed && 2 ^ (8 * m.1.size - 1) ≤ ofLE m.2 then 256 ^ m.1.size - ofLE m.2 - 1
  else ofLE m.2

/-- The object has the size of its type. -/
def WellSized (m : VarintMember) : Prop :=
  (m.1.size = 4 ∨ m.1.size = 8) ∧ m.2.length = m.1.size

end VarintMember

/-- The varint members of a struct, in order. -/
def varintMembers (tag : SpConfig) : List Ty → List Val → List VarintMember
  | t :: ts, x :: xs =>
    match varintForm tag t with
    | some f => (f, x.repr) :: varintMembers tag ts xs
    | none => varintMembers tag ts xs
  | _, _ => []

/-- `unsigned_max` or `signed_max`: the largest magnitude of that signedness. -/
def maxMagnitude (signed : Bool) (ms : List VarintMember) : ℕ :=
  ((ms.filter fun m => m.nonzero && m.1.signed = signed).map VarintMember.magnitude).foldr max 0

/-- The width class of the unsigned members. -/
def unsignedWidth (x : ℕ) : ℕ :=
  if x ≤ 0xff then 0 else if x ≤ 0xffff then 1 else if x ≤ 0xffffffff then 2 else 3

/-- The width class of the signed members. -/
def signedWidth (x : ℕ) : ℕ :=
  if x ≤ 0x7f then 0 else if x ≤ 0x7fff then 1 else if x ≤ 0x7fffffff then 2 else 3

/-- `get_fast_varint_width_from_max`; a signedness without members has class `0`. -/
def fastVarintWidth (ms : List VarintMember) : ℕ :=
  max (unsignedWidth (maxMagnitude false ms)) (signedWidth (maxMagnitude true ms))

/-- A bit set as a number, lowest bit first. -/
def bitmap : List Bool → ℕ
  | [] => 0
  | b :: bs => b.toNat + 2 * bitmap bs

/-- `bitset_size`: one bit for each of `cnt` members and two for the width. -/
def bitsetSize (cnt : ℕ) : ℕ := (cnt + 2 + 7) / 8

/-- The bits of the block: which members are nonzero, then the width class. -/
def fastVarintBits (ms : List VarintMember) : List Bool :=
  ms.map VarintMember.nonzero ++ [(fastVarintWidth ms).testBit 0, (fastVarintWidth ms).testBit 1]

/-- The bytes of one member: its low bytes, as many as the width and the type have. -/
def cutMember (width : ℕ) (m : VarintMember) : Bytes := m.2.take (min (2 ^ width) m.1.size)

/-- `serialize_fast_varint`. -/
def fastVarintBytes (ms : List VarintMember) : Bytes :=
  if ms = [] then []
  else
    toLE (bitsetSize ms.length) (bitmap (fastVarintBits ms)) ++
      (ms.filter VarintMember.nonzero).flatMap (cutMember (fastVarintWidth ms))

/-- `calculate_fast_varint_size`. -/
def calculateFastVarintSize (ms : List VarintMember) : ℕ :=
  if ms = [] then 0
  else
    let width := 2 ^ fastVarintWidth ms
    let nonZeroCnt64 := (ms.filter fun m => m.nonzero && m.1.size = 8).length
    let nonZeroCnt32 := (ms.filter fun m => m.nonzero && m.1.size = 4).length
    width * nonZeroCnt64 + min width 4 * nonZeroCnt32 + bitsetSize ms.length

/-- A member read from `low`, its low bytes: zero extended, or as an `int_t` of that width
and sign extended. -/
def extendLow (f : VarintForm) (low : Bytes) : Bytes :=
  let n := ofLE low
  if f.signed && 2 ^ (8 * low.length - 1) ≤ n then
    toLE f.size (n + (256 ^ f.size - 256 ^ low.length))
  else toLE f.size n

theorem unsignedWidth_le (x : ℕ) : unsignedWidth x ≤ 3 := by
  rw [unsignedWidth]
  split_ifs <;> omega

theorem signedWidth_le (x : ℕ) : signedWidth x ≤ 3 := by
  rw [signedWidth]
  split_ifs <;> omega

theorem fastVarintWidth_le (ms : List VarintMember) : fastVarintWidth ms ≤ 3 :=
  max_le (unsignedWidth_le _) (signedWidth_le _)

theorem cutMember_length {m : VarintMember} (hm : m.WellSized) (ms : List VarintMember) :
    (cutMember (fastVarintWidth ms) m).length =
      if m.1.size = 8 then 2 ^ fastVarintWidth ms else min (2 ^ fastVarintWidth ms) 4 := by
  obtain ⟨hsize, hlen⟩ := hm
  have hw : 2 ^ fastVarintWidth ms ≤ 2 ^ 3 :=
    Nat.pow_le_pow_right (by decide) (fastVarintWidth_le ms)
  rw [cutMember, List.length_take, hlen]
  rcases hsize with h | h <;> simp only [h] <;> simp
  exact hw

theorem fastVarintBytes_length {ms : List VarintMember} (hms : ∀ m ∈ ms, m.WellSized) :
    (fastVarintBytes ms).length = calculateFastVarintSize ms := by
  rw [fastVarintBytes, calculateFastVarintSize]
  split
  · rfl
  have key : ∀ l : List VarintMember, (∀ m ∈ l, m.WellSized) →
      ((l.filter VarintMember.nonzero).flatMap (cutMember (fastVarintWidth ms))).length =
        2 ^ fastVarintWidth ms * (l.filter fun m => m.nonzero && m.1.size = 8).length +
        min (2 ^ fastVarintWidth ms) 4 * (l.filter fun m => m.nonzero && m.1.size = 4).length := by
    intro l hl
    induction l with
    | nil => rfl
    | cons m l ih =>
      have hm := hl m List.mem_cons_self
      have ih := ih fun x hx => hl x (List.mem_cons_of_mem _ hx)
      cases hnz : m.nonzero with
      | false => simpa [hnz] using ih
      | true =>
        have hcut := cutMember_length hm ms
        rcases hm.1 with h | h <;>
        · simp [h, hnz, hcut, ih]
          ring
  rw [List.length_append, toLE_length, key ms hms]
  ring

/-! ### Restoring the members -/

theorem bitmap_lt (bs : List Bool) : bitmap bs < 2 ^ bs.length := by
  induction bs with
  | nil => simp [bitmap]
  | cons b bs ih =>
    have hb : b.toNat ≤ 1 := Bool.toNat_le b
    rw [bitmap, List.length_cons, pow_succ]
    omega

theorem testBit_bitmap (bs : List Bool) (i : ℕ) : (bitmap bs).testBit i = bs.getD i false := by
  induction bs generalizing i with
  | nil => simp [bitmap]
  | cons b bs ih =>
    rw [bitmap, Nat.add_comm, Nat.mul_comm]
    cases i with
    | zero =>
      rw [Nat.testBit_zero]
      cases b <;> simp
    | succ i =>
      have hdiv : (bitmap bs * 2 + b.toNat) / 2 = bitmap bs := by
        cases b
        · simp
        · simp
          omega
      rw [Nat.testBit_succ, hdiv, ih, List.getD_cons_succ]

theorem maxMagnitude_ge {ms : List VarintMember} {m : VarintMember} (hm : m ∈ ms)
    (hnz : m.nonzero = true) : m.magnitude ≤ maxMagnitude m.1.signed ms := by
  have hmem : m.magnitude ∈ (ms.filter fun n => n.nonzero && n.1.signed = m.1.signed).map
      VarintMember.magnitude := by
    refine List.mem_map_of_mem (List.mem_filter.mpr ⟨hm, ?_⟩)
    simp [hnz]
  rw [maxMagnitude]
  generalize (ms.filter fun n => n.nonzero && n.1.signed = m.1.signed).map
      VarintMember.magnitude = l at hmem
  induction l with
  | nil => simp at hmem
  | cons n l ih =>
    rw [List.foldr_cons]
    rcases List.mem_cons.mp hmem with h | h
    · exact h ▸ le_max_left _ _
    · exact (ih h).trans (le_max_right _ _)

theorem unsignedWidth_fits (x : ℕ) : x < 2 ^ 64 → x < 256 ^ 2 ^ unsignedWidth x := by
  intro h
  rw [unsignedWidth]
  split_ifs <;> omega

theorem signedWidth_fits (x : ℕ) : x < 2 ^ 63 → x < 2 ^ (8 * 2 ^ signedWidth x - 1) := by
  intro h
  rw [signedWidth]
  split_ifs <;> omega

theorem unsignedWidth_mono {x y : ℕ} (h : x ≤ y) : unsignedWidth x ≤ unsignedWidth y := by
  rw [unsignedWidth, unsignedWidth]
  split_ifs <;> omega

theorem signedWidth_mono {x y : ℕ} (h : x ≤ y) : signedWidth x ≤ signedWidth y := by
  rw [signedWidth, signedWidth]
  split_ifs <;> omega

section Extend

variable {m : VarintMember} {ms : List VarintMember}

theorem magnitude_lt (hm : m.WellSized) :
    m.magnitude < if m.1.signed then 2 ^ (8 * m.1.size - 1) else 256 ^ m.1.size := by
  obtain ⟨hsize, hlen⟩ := hm
  have hb := ofLE_lt m.2
  rw [hlen] at hb
  rw [VarintMember.magnitude]
  rcases hsize with h | h <;> rw [h] at hb ⊢ <;>
  · cases m.1.signed
    · simpa using hb
    · simp only [Bool.true_and, decide_eq_true_eq, if_true]
      split_ifs <;> omega

/-- A nonzero member fits the bytes it is cut to. -/
private theorem magnitude_fits (hmem : m ∈ ms) (hnz : m.nonzero = true) (hm : m.WellSized) :
    m.magnitude < if m.1.signed then 2 ^ (8 * min (2 ^ fastVarintWidth ms) m.1.size - 1)
      else 256 ^ min (2 ^ fastVarintWidth ms) m.1.size := by
  have hlt := magnitude_lt hm
  rcases le_total (2 ^ fastVarintWidth ms) m.1.size with h | h
  · rw [min_eq_left h]
    have hmax := maxMagnitude_ge hmem hnz
    have hsize : m.1.size ≤ 8 := by rcases hm.1 with h | h <;> omega
    cases hs : m.1.signed with
    | true =>
      rw [hs] at hmax hlt
      simp only [if_true] at hlt ⊢
      have hw : signedWidth m.magnitude ≤ fastVarintWidth ms :=
        (signedWidth_mono hmax).trans (le_max_right _ _)
      have h64 : m.magnitude < 2 ^ 63 :=
        hlt.trans_le (Nat.pow_le_pow_right (by decide) (by omega))
      refine (signedWidth_fits _ h64).trans_le (Nat.pow_le_pow_right (by decide) ?_)
      have := Nat.pow_le_pow_right (show 0 < 2 by decide) hw
      omega
    | false =>
      rw [hs] at hmax hlt
      simp only [Bool.false_eq_true, if_false] at hlt ⊢
      have hw : unsignedWidth m.magnitude ≤ fastVarintWidth ms :=
        (unsignedWidth_mono hmax).trans (le_max_left _ _)
      have h64 : m.magnitude < 2 ^ 64 := by
        refine hlt.trans_le ((Nat.pow_le_pow_right (by decide) hsize).trans (by decide))
      refine (unsignedWidth_fits _ h64).trans_le (Nat.pow_le_pow_right (by decide) ?_)
      exact Nat.pow_le_pow_right (by decide) hw
  · rwa [min_eq_right h]

/-- A member that was cut to the common width is restored. -/
theorem extendLow_cutMember (hmem : m ∈ ms) (hnz : m.nonzero = true) (hm : m.WellSized) :
    extendLow m.1 (cutMember (fastVarintWidth ms) m) = m.2 := by
  have hfits := magnitude_fits hmem hnz hm
  obtain ⟨hsize, hlen⟩ := hm
  set c := min (2 ^ fastVarintWidth ms) m.1.size with hc
  have hcpos : 0 < c := lt_min (Nat.two_pow_pos _) (by rcases hsize with h | h <;> omega)
  have hcle : c ≤ m.1.size := min_le_right _ _
  have hclen : (m.2.take c).length = c := by rw [List.length_take, hlen, min_eq_left hcle]
  have hb := ofLE_lt m.2
  rw [hlen] at hb
  have hrestore : ∀ n, n = ofLE m.2 → toLE m.1.size n = m.2 := by
    rintro n rfl
    rw [← hlen, toLE_ofLE]
  have hlow : ofLE (m.2.take c) = ofLE m.2 % 256 ^ c := ofLE_take (hlen ▸ hcle)
  rw [cutMember, ← hc, extendLow, hclen, hlow]
  rw [VarintMember.magnitude] at hfits
  have hpow : 256 ^ c = 2 * 2 ^ (8 * c - 1) := by
    rw [show (256 : ℕ) = 2 ^ 8 from rfl, ← pow_mul, ← pow_succ']
    congr 1
    omega
  have hsplit : 256 ^ m.1.size = 256 ^ c * 256 ^ (m.1.size - c) := by
    rw [← pow_add]
    congr 1
    omega
  have hpos : 0 < 256 ^ (m.1.size - c) := Nat.pow_pos (by decide)
  cases hs : m.1.signed with
  | false =>
    simp only [hs, Bool.false_and, Bool.false_eq_true, if_false] at hfits ⊢
    exact hrestore _ (Nat.mod_eq_of_lt hfits)
  | true =>
    simp only [hs, Bool.true_and, decide_eq_true_eq, if_true] at hfits ⊢
    by_cases hneg : 2 ^ (8 * m.1.size - 1) ≤ ofLE m.2
    · -- a negative member: its magnitude fits, so the sign bit of the low part is set
      rw [if_pos hneg] at hfits
      have hmod : ofLE m.2 % 256 ^ c = 256 ^ c - 1 - (256 ^ m.1.size - ofLE m.2 - 1) := by
        obtain ⟨q, hq⟩ : ∃ q, 256 ^ (m.1.size - c) = q + 1 := ⟨_, (Nat.succ_pred hpos.ne').symm⟩
        rw [hq, Nat.mul_succ] at hsplit
        have hval : ofLE m.2 = 256 ^ c * q + (256 ^ c - 1 - (256 ^ m.1.size - ofLE m.2 - 1)) := by
          omega
        rw [hval, Nat.mul_add_mod, Nat.mod_eq_of_lt (by omega), ← hval]
      have hle : 256 ^ c ≤ 256 ^ m.1.size := Nat.pow_le_pow_right (by decide) hcle
      rw [hmod, if_pos (by omega)]
      exact hrestore _ (by omega)
    · rw [if_neg hneg] at hfits
      rw [Nat.mod_eq_of_lt (by omega), if_neg (by omega)]
      exact hrestore _ rfl

end Extend

/-- The widest class is chosen for a 64-bit member only. -/
theorem exists_size_eq_of_width {ms : List VarintMember} (hms : ∀ m ∈ ms, m.WellSized)
    (hw : fastVarintWidth ms = 3) : ∃ m ∈ ms, m.1.size = 8 := by
  by_contra hnot
  push Not at hnot
  have hbound : ∀ signed, maxMagnitude signed ms < if signed then 2 ^ 31 else 2 ^ 32 := by
    intro signed
    rw [maxMagnitude]
    have : ∀ l : List ℕ, ∀ b, 0 < b → (∀ x ∈ l, x < b) → l.foldr max 0 < b := by
      intro l b hb hl
      induction l with
      | nil => exact hb
      | cons x l ih =>
        exact max_lt (hl x List.mem_cons_self) (ih fun y hy => hl y (List.mem_cons_of_mem _ hy))
    refine this _ _ (by split <;> decide) fun x hx => ?_
    obtain ⟨m, hm, rfl⟩ := List.mem_map.mp hx
    obtain ⟨hm, hsel⟩ := List.mem_filter.mp hm
    simp only [Bool.and_eq_true, decide_eq_true_eq] at hsel
    have hsize : m.1.size = 4 := (hms m hm).1.resolve_right (hnot m hm)
    have := magnitude_lt (hms m hm)
    rw [hsize, hsel.2] at this
    exact this
  have h₀ := hbound false
  have h₁ := hbound true
  simp only [Bool.false_eq_true, if_false, if_true] at h₀ h₁
  rw [fastVarintWidth, unsignedWidth, signedWidth] at hw
  split_ifs at hw <;> omega

end Yalantinglibs.StructPack
