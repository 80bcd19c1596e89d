import Yalantinglibs.StructPack.ReadBack
import Mathlib.Order.Bounds.Basic
import Mathlib.Tactic.IntervalCases

/-!
# The fast varint block of a struct

What `serialize_fast_varint` writes for the varint members of a struct, as integers: the width is
the least one that has room for all of them, each is the same integer in the bytes it is cut to, and
the reader finds all of them again.

## Main definitions

* `toInt` — the integer of a little-endian representation
* `InRange` — an integer type has room for an integer
* `BlockSpec` — what holds of a block

## Main results

* `fastVarintWidth_le_iff` — which widths have room for the members
* `blockSpec` — what holds of a block does
-/

set_option autoImplicit false

namespace Yalantinglibs.StructPack

open ByteCodec

/-- The integer whose representation is given; a signed one is in two's complement. -/
def toInt (signed : Bool) (b : Bytes) : ℤ :=
  if signed && 2 ^ (8 * b.length - 1) ≤ ofLE b then ofLE b - 256 ^ b.length else ofLE b

/-- An integer type of `n` bytes has room for `v`. -/
def InRange (signed : Bool) (n : ℕ) (v : ℤ) : Prop :=
  if signed then -2 ^ (8 * n - 1) ≤ v ∧ v < 2 ^ (8 * n - 1) else 0 ≤ v ∧ v < 256 ^ n

/-- The integer that is stored in a member. -/
def VarintMember.value (m : VarintMember) : ℤ := toInt m.1.signed m.2

section Width

variable {m : VarintMember} {ms : List VarintMember} {w : ℕ}

/-- A member is in the range of a type when the number that the width has to hold is. -/
theorem inRange_iff_magnitude (hm : m.WellSized) {n : ℕ} : InRange m.1.signed n m.value ↔
    m.magnitude < if m.1.signed then 2 ^ (8 * n - 1) else 256 ^ n := by
  obtain ⟨-, hlen⟩ := hm
  have hb := ofLE_lt m.2
  have hcast : ((256 ^ m.1.size : ℕ) : ℤ) = 256 ^ m.1.size := by norm_num
  rw [hlen] at hb
  rw [InRange, VarintMember.value, toInt, VarintMember.magnitude, hlen]
  cases m.1.signed with
  | false =>
    simp only [Bool.false_and, Bool.false_eq_true, if_false]
    constructor
    · rintro ⟨-, h⟩
      exact_mod_cast h
    · intro h
      exact ⟨Int.natCast_nonneg _, by exact_mod_cast h⟩
  | true =>
    have hpow : ((2 ^ (8 * n - 1) : ℕ) : ℤ) = 2 ^ (8 * n - 1) := by norm_num
    have hpos : 0 < 2 ^ (8 * n - 1) := Nat.two_pow_pos _
    simp only [Bool.true_and, decide_eq_true_eq, if_true]
    by_cases hneg : 2 ^ (8 * m.1.size - 1) ≤ ofLE m.2
    · rw [if_pos hneg, if_pos hneg, ← hcast, ← hpow]
      omega
    · rw [if_neg hneg, if_neg hneg, ← hpow]
      omega

theorem unsignedWidth_le_iff {x : ℕ} (hx : x < 2 ^ 64) (hw : w ≤ 3) :
    unsignedWidth x ≤ w ↔ x < 256 ^ 2 ^ w := by
  rw [unsignedWidth]
  interval_cases w <;> split_ifs <;> omega

theorem signedWidth_le_iff {x : ℕ} (hx : x < 2 ^ 63) (hw : w ≤ 3) :
    signedWidth x ≤ w ↔ x < 2 ^ (8 * 2 ^ w - 1) := by
  rw [signedWidth]
  interval_cases w <;> split_ifs <;> omega

/-- The largest number is below a bound when those of all members that are not zero are. -/
theorem maxMagnitude_lt_iff {signed : Bool} {b : ℕ} (hb : 0 < b) : maxMagnitude signed ms < b ↔
    ∀ m ∈ ms, m.nonzero = true → m.1.signed = signed → m.magnitude < b := by
  constructor
  · rintro h m hm hnz rfl
    exact (maxMagnitude_ge hm hnz).trans_lt h
  · intro h
    have hfold : ∀ l : List ℕ, (∀ x ∈ l, x < b) → l.foldr max 0 < b := by
      intro l hl
      induction l with
      | nil => exact hb
      | cons x l ih =>
        exact max_lt (hl x List.mem_cons_self) (ih fun y hy => hl y (List.mem_cons_of_mem _ hy))
    refine hfold _ fun x hx => ?_
    obtain ⟨m, hm, rfl⟩ := List.mem_map.mp hx
    obtain ⟨hm, hsel⟩ := List.mem_filter.mp hm
    simp only [Bool.and_eq_true, decide_eq_true_eq] at hsel
    exact h m hm hsel.1 hsel.2

/-- A member that is zero is in every range. -/
theorem magnitude_of_zero (h : m.nonzero = false) : m.magnitude = 0 := by
  have hzero : ofLE m.2 = 0 := by simpa [VarintMember.nonzero] using h
  have hpos : 0 < 2 ^ (8 * m.1.size - 1) := Nat.two_pow_pos _
  rw [VarintMember.magnitude, hzero, if_neg]
  simp

/-- No member needs more than eight bytes. -/
theorem maxMagnitude_lt (hms : ∀ m ∈ ms, m.WellSized) (signed : Bool) :
    maxMagnitude signed ms < if signed then 2 ^ 63 else 2 ^ 64 := by
  have hpos : 0 < if signed then 2 ^ 63 else 2 ^ 64 := by cases signed <;> decide
  rw [maxMagnitude_lt_iff hpos]
  rintro m hm - rfl
  refine (magnitude_lt (hms m hm)).trans_le ?_
  rcases (hms m hm).1 with h | h <;> rw [h] <;> cases m.1.signed <;> decide

/-- A width has room for the members when their largest numbers say so. -/
theorem fastVarintWidth_le_iff (hms : ∀ m ∈ ms, m.WellSized) (hw : w ≤ 3) :
    fastVarintWidth ms ≤ w ↔ ∀ m ∈ ms, InRange m.1.signed (2 ^ w) m.value := by
  have hunsigned : 0 < 256 ^ 2 ^ w := Nat.pow_pos (by decide)
  have hsigned : 0 < 2 ^ (8 * 2 ^ w - 1) := Nat.two_pow_pos _
  rw [fastVarintWidth, max_le_iff, unsignedWidth_le_iff (maxMagnitude_lt hms false) hw,
    signedWidth_le_iff (maxMagnitude_lt hms true) hw, maxMagnitude_lt_iff hunsigned,
    maxMagnitude_lt_iff hsigned]
  constructor
  · rintro ⟨hu, hs⟩ m hm
    rw [inRange_iff_magnitude (hms m hm)]
    cases hnz : m.nonzero with
    | false =>
      rw [magnitude_of_zero hnz]
      split <;> assumption
    | true =>
      cases hsign : m.1.signed with
      | false => exact hu m hm hnz hsign
      | true => exact hs m hm hnz hsign
  · intro h
    constructor
    all_goals
      intro m hm _ hsign
      have := (inRange_iff_magnitude (hms m hm)).mp (h m hm)
      rw [hsign] at this
      exact this

/-- The integer of a member that was widened again is that of the bytes it was cut to. -/
theorem toInt_extendLow {f : VarintForm} {low : Bytes} (hpos : 0 < low.length)
    (hle : low.length ≤ f.size) : toInt f.signed (extendLow f low) = toInt f.signed low := by
  have hlt := ofLE_lt low
  have hpow : 256 ^ low.length ≤ 256 ^ f.size := Nat.pow_le_pow_right (by decide) hle
  have hcast : ∀ n : ℕ, ((256 ^ n : ℕ) : ℤ) = 256 ^ n := fun n => by norm_num
  have hhalf : ∀ n : ℕ, 0 < n → 256 ^ n = 2 * 2 ^ (8 * n - 1) := by
    intro n hn
    rw [show (256 : ℕ) = 2 ^ 8 from rfl, ← pow_mul, ← pow_succ']
    congr 1
    omega
  have hsize := hhalf f.size (hpos.trans_le hle)
  have hlow := hhalf low.length hpos
  rw [toInt, toInt, extendLow]
  cases f.signed with
  | false =>
    simp only [Bool.false_and, Bool.false_eq_true, if_false]
    rw [ofLE_toLE (hlt.trans_le hpow)]
  | true =>
    simp only [Bool.true_and, decide_eq_true_eq]
    by_cases hneg : 2 ^ (8 * low.length - 1) ≤ ofLE low
    · -- the sign bit is set in both
      have hval : ofLE low + (256 ^ f.size - 256 ^ low.length) < 256 ^ f.size := by omega
      rw [if_pos hneg, if_pos hneg, toLE_length, ofLE_toLE hval, if_pos (by omega), ← hcast,
        ← hcast]
      omega
    · have hmono : 2 ^ (8 * low.length - 1) ≤ 2 ^ (8 * f.size - 1) :=
        Nat.pow_le_pow_right (by decide) (by omega)
      rw [if_neg hneg, if_neg hneg, toLE_length, ofLE_toLE (hlt.trans_le hpow), if_neg (by omega)]

/-- A member is the same integer in the bytes it is cut to. -/
theorem toInt_cutMember (hmem : m ∈ ms) (hnz : m.nonzero = true) (hm : m.WellSized) :
    toInt m.1.signed (cutMember (fastVarintWidth ms) m) = m.value := by
  have hlen : (cutMember (fastVarintWidth ms) m).length =
      min (2 ^ fastVarintWidth ms) m.1.size := by
    rw [cutMember, List.length_take, hm.2]
    exact min_eq_left (min_le_right _ _)
  have hsize : 0 < m.1.size := by rcases hm.1 with h | h <;> omega
  have hpos : 0 < min (2 ^ fastVarintWidth ms) m.1.size := lt_min (Nat.two_pow_pos _) hsize
  have := toInt_extendLow (f := m.1) (hlen ▸ hpos) (hlen ▸ min_le_right _ _)
  rw [← this, extendLow_cutMember hmem hnz hm, VarintMember.value]

end Width

namespace TypeEnv

variable {Γ : TypeEnv} {tag : SpConfig} {ts : List Ty} {xs olds : List Val}

/-- A representation of `0`. -/
theorem eq_replicate_of_ofLE {b : Bytes} (h : ofLE b = 0) : b = List.replicate b.length 0 := by
  have hzero : ∀ n, ofLE (List.replicate n 0) = 0 := by
    intro n
    induction n with
    | zero => rfl
    | succ n ih =>
      rw [List.replicate_succ, ofLE, ih]
      rfl
  apply ofLE_injective (List.length_replicate).symm
  rw [h, hzero]

/-- The members whose varints are to be read are zero. -/
def ZeroInitialised (tag : SpConfig) (ts : List Ty) (olds : List Val) : Prop :=
  olds.length = ts.length ∧
    ∀ (i : ℕ) (t : Ty) (f : VarintForm), ts[i]? = some t → varintForm tag t = some f →
      olds[i]? = some (.bytes (List.replicate f.size 0))

/-- A struct behind its block: the varint members are those that were written. -/
theorem getElem?_blockItems (hty : ∀ p ∈ ts.zip xs, Γ.HasTy p.1 p.2)
    (hlen : ts.length = xs.length) (hzero : ZeroInitialised tag ts olds) {i : ℕ} {t : Ty}
    (ht : ts[i]? = some t) :
    (blockItems true tag ts olds xs)[i]? = if isVarint tag t then xs[i]? else olds[i]? := by
  induction ts generalizing xs olds i with
  | nil => cases ht
  | cons t' ts ih =>
    cases xs with
    | nil => cases hlen
    | cons x xs =>
      cases olds with
      | nil => exact absurd hzero.1 (by simp)
      | cons o olds =>
        rw [blockItems]
        cases i with
        | zero =>
          cases ht
          have hx : Γ.HasTy t x := hty (t, x) (by simp)
          simp only [List.getElem?_cons_zero, Bool.true_and, List.headD_cons]
          cases hf : varintForm tag t with
          | none => simp [isVarint, hf]
          | some f =>
            have hvar : isVarint tag t = true := by simp [isVarint, hf]
            have ho : o = .bytes (List.replicate f.size 0) :=
              Option.some.inj (hzero.2 0 t f rfl hf)
            rw [hvar, if_pos rfl]
            by_cases hx0 : ofLE x.repr = 0
            · have hrepr := eq_replicate_of_ofLE hx0
              rw [(wellSized_of_varintForm hf hx).2] at hrepr
              simp only [hx0, ne_eq, not_true_eq_false, decide_false, Bool.and_false,
                Bool.false_eq_true, if_false]
              rw [ho, hx.eq_bytes_of_varint hvar, hrepr]
            · simp only [ne_eq, hx0, not_false_eq_true, decide_true, Bool.and_true, if_true]
        | succ i =>
          have hzero' : ZeroInitialised tag ts olds :=
            ⟨Nat.succ.inj hzero.1, fun j u f hu hf => hzero.2 (j + 1) u f hu hf⟩
          simp only [List.getElem?_cons_succ, List.tail_cons] at ht ⊢
          exact ih (fun p hp => hty p (by simp [hp])) (Nat.succ.inj hlen) hzero' ht

theorem blockItems_length (hlen : ts.length = xs.length) :
    (blockItems true tag ts olds xs).length = ts.length := by
  induction ts generalizing xs olds with
  | nil => cases xs <;> rfl
  | cons t ts ih =>
    cases xs with
    | nil => cases hlen
    | cons x xs => rw [blockItems, List.length_cons, ih (Nat.succ.inj hlen), List.length_cons]

/-- The block of a struct with the members `xs`. -/
structure BlockSpec (tag : SpConfig) (ts : List Ty) (xs : List Val) : Prop where
  /-- the block is as long as was computed -/
  length_eq : (fastVarintBytes (varintMembers tag ts xs)).length =
    calculateFastVarintSize (varintMembers tag ts xs)
  /-- the width is the least of `1`, `2`, `4` and `8` bytes that has room for all members -/
  isLeast : IsLeast
    {w | w ≤ 3 ∧ ∀ m ∈ varintMembers tag ts xs, InRange m.1.signed (2 ^ w) m.value}
    (fastVarintWidth (varintMembers tag ts xs))
  /-- what is written of a member is the same integer -/
  toInt_cut : ∀ m ∈ varintMembers tag ts xs, m.nonzero = true →
    toInt m.1.signed (cutMember (fastVarintWidth (varintMembers tag ts xs)) m) = m.value
  /-- the varint members are found again, the others are as they were, and nothing behind the block
  is read -/
  recovers : ∀ (olds : List Val) (s : Bytes), ZeroInitialised tag ts olds →
    ∃ ys, deserializeFastVarint true tag ts olds
        (fastVarintBytes (varintMembers tag ts xs) ++ s) = .done ys s ∧ ys.length = ts.length ∧
      ∀ (i : ℕ) (t : Ty), ts[i]? = some t → ys[i]? = if isVarint tag t then xs[i]? else olds[i]?

/-- The block of any struct. -/
theorem blockSpec (hty : ∀ p ∈ ts.zip xs, Γ.HasTy p.1 p.2) (hlen : ts.length = xs.length) :
    BlockSpec tag ts xs := by
  have hms : ∀ m ∈ varintMembers tag ts xs, m.WellSized := varintMembers_wellSized hty
  have hw := fastVarintWidth_le (varintMembers tag ts xs)
  constructor
  · exact fastVarintBytes_length hms
  · refine ⟨⟨hw, (fastVarintWidth_le_iff hms hw).mp le_rfl⟩, ?_⟩
    rintro w ⟨hle, hroom⟩
    exact (fastVarintWidth_le_iff hms hle).mpr hroom
  · intro m hm hnz
    exact toInt_cutMember hm hnz (hms m hm)
  · intro olds s hzero
    refine ⟨_, deserializeFastVarint_append true hty hlen olds s, blockItems_length hlen, ?_⟩
    intro i t ht
    exact getElem?_blockItems hty hlen hzero ht

/-- The members of a struct with a `char` between a signed and an unsigned integer. -/
def mixedMembers : List Ty :=
  [.varInt .varInt32, .fundamental .char8, .fundamental .uint64, .fundamental .int64]

/-- The least signed integers and the largest unsigned one. -/
def extremes : List Val :=
  [.bytes [0, 0, 0, 0x80], .bytes [7], .bytes [0xff, 0xff, 0xff, 0xff, 0xff, 0xff, 0xff, 0xff],
    .bytes [0, 0, 0, 0, 0, 0, 0, 0x80]]

theorem blockSpec_extremes :
    BlockSpec (SpConfig.USE_FAST_VARINT ||| SpConfig.ENCODING_WITH_VARINT) mixedMembers extremes := by
  have hty : ∀ p ∈ mixedMembers.zip extremes, plain.HasTy p.1 p.2 := by
    intro p hp
    simp only [mixedMembers, extremes, List.zip_cons_cons, List.zip_nil_left, List.mem_cons,
      List.not_mem_nil, or_false] at hp
    rcases hp with rfl | rfl | rfl | rfl
    · exact .varInt _ _ rfl
    all_goals exact .fundamental _ _ rfl
  exact blockSpec hty rfl

end TypeEnv

end Yalantinglibs.StructPack
