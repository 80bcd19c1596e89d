import Yalantinglibs.StructPack.Packer
import Mathlib.Tactic.IntervalCases

/-!
# Padding and the layout it stands for

`calculate_padding_size` of `alignment.hpp` beside the layout that a compiler gives the struct
without its `compatible` members: each member at the next multiple of its alignment, or of the value
of `#pragma pack` where that is smaller, and the whole at a multiple of the alignment of the struct.

What is computed is `min(pack - 1, align - offset % align)`, which differs from that for some
offsets when the value of `#pragma pack` is between one and the alignment of a member.

## Main definitions

* `structPadding` — `align::padding_size` of a struct
* `writePadded` — the members one after the other, each with the padding behind it
* `oldImage` — the object representation of the struct without its `compatible` members
* `PaddingSpec` — the padding is that of the layout
* `Rounds` — the offsets at which it is

## Main results

* `paddingSpec_iff` — when the padding is that of the layout
* `structLayout_paddingSize`, `serializePadded_eq` — what stands for a struct of a program
-/

set_option autoImplicit false

namespace Yalantinglibs.StructPack

/-! ### Definitions -/

/-- A member with its alignment and its object representation; a `compatible` one as `none`. -/
abbrev Member := Option (ℕ × Bytes)

/-- The members as `calculate_padding_size` sees them. -/
def slots (ms : List Member) : List (Option (ℕ × ℕ)) :=
  ms.map (Option.map fun m => (m.1, m.2.length))

/-- The members of the old struct, with their sizes first. -/
def oldMembers (ms : List Member) : List (ℕ × ℕ) :=
  ms.filterMap (Option.map fun m => (m.2.length, m.1))

/-- The largest alignment of a member. -/
def largestAlignment (ss : List (Option (ℕ × ℕ))) : ℕ :=
  (ss.map fun s => (s.map Prod.fst).getD 0).foldr max 0

/-- `align::pack_alignment_v` of a struct under `#pragma pack(pack)`, where `0` stands for none. -/
def packAlignmentV (pack : ℕ) (ss : List (Option (ℕ × ℕ))) : ℕ :=
  if pack = 0 then largestAlignment ss else pack

/-- `align::alignment_v` of a struct with `alignas(alignas)`, where `0` stands for none. -/
def alignmentV (pack alignas : ℕ) (ss : List (Option (ℕ × ℕ))) : ℕ :=
  if alignas ≠ 0 then alignas else packAlignmentV pack ss

/-- `align::padding_size`. -/
def structPadding (pack alignas : ℕ) (ss : List (Option (ℕ × ℕ))) : List ℕ :=
  paddingSizes (packAlignmentV pack ss) (alignmentV pack alignas ss) 0 ss

/-- Where the members are when they are written with the padding before them. -/
def paddedOffsets : ℕ → List ℕ → List (Option (ℕ × ℕ)) → List ℕ
  | offset, p :: ps, none :: ss => paddedOffsets (offset + p) ps ss
  | offset, p :: ps, some (_, size) :: ss =>
    (offset + p) :: paddedOffsets (offset + p + size) ps ss
  | _, _, _ => []

/-- The bytes of a member; a `compatible` one is not written here. -/
def Member.bytes (m : Member) : Bytes := (m.map Prod.snd).getD []

/-- The members, each with the padding behind it. -/
def writePadded : List Member → List ℕ → Bytes
  | m :: ms, p :: ps => m.bytes ++ List.replicate p 0 ++ writePadded ms ps
  | _, _ => []

/-- The object representation of the old struct from an offset on, where the padding is zero. -/
def oldImageFrom (pack align : ℕ) : ℕ → List Member → Bytes
  | offset, [] => List.replicate (alignUp offset align - offset) 0
  | offset, none :: ms => oldImageFrom pack align offset ms
  | offset, some (a, b) :: ms =>
    List.replicate (alignUp offset (packed pack a) - offset) 0 ++ b ++
      oldImageFrom pack align (alignUp offset (packed pack a) + b.length) ms

/-- The object representation of the old struct. -/
def oldImage (pack alignas : ℕ) (ms : List Member) : Bytes :=
  oldImageFrom pack (classAlign pack alignas (oldMembers ms)) 0 ms

/-- What the assertions let through, of a struct that can be declared. -/
structure Allowed (pack alignas : ℕ) (ms : List Member) : Prop where
  /-- the values of `#pragma pack` -/
  pack_mem : pack ∈ [0, 1, 2, 4, 8, 16]
  /-- alignments are powers of two -/
  align : ∀ m ∈ oldMembers ms, ∃ k, m.2 = 2 ^ k
  /-- so is a declared one, and it is that of the old struct -/
  alignas_eq : alignas ≠ 0 →
    (∃ k, alignas = 2 ^ k) ∧ classAlign pack alignas (oldMembers ms) = alignas

/-- The padding is that of the old struct. -/
structure PaddingSpec (pack alignas : ℕ) (ms : List Member) : Prop where
  /-- each member is where the old struct has it -/
  offsets : paddedOffsets 0 (structPadding pack alignas (slots ms)) (slots ms) =
    memberOffsets pack 0 (oldMembers ms)
  /-- the total is a multiple of the alignment -/
  multiple : alignmentV pack alignas (slots ms) ∣
    (writePadded ms (structPadding pack alignas (slots ms)).tail).length
  /-- the total is the size of the old struct -/
  total : (writePadded ms (structPadding pack alignas (slots ms)).tail).length =
    classSize pack alignas (oldMembers ms)
  /-- what is written is the image of the old struct -/
  image : writePadded ms (structPadding pack alignas (slots ms)).tail = oldImage pack alignas ms

/-- What is computed for a member at an offset is what rounds it up. -/
def Rounds (pack align offset : ℕ) : Prop :=
  pack = 0 ∨ pack = 1 ∨ align ≤ pack ∨ offset % align = 0 ∨ align - pack < offset % align ∨
    offset % pack = 1

/-- It is for all members of the old struct, where they begin behind one another. -/
def RoundsFrom (pack : ℕ) : ℕ → List (ℕ × ℕ) → Prop
  | _, [] => True
  | offset, (size, a) :: ms =>
    Rounds pack a offset ∧ RoundsFrom pack (alignUp offset (packed pack a) + size) ms

/-! ### One member -/

section One

variable {x a p : ℕ}

theorem alignUp_sub : alignUp x a - x = if x % a = 0 then 0 else a - x % a := by
  rw [alignUp]
  split <;> omega

theorem dvd_alignUp (ha : 0 < a) : a ∣ alignUp x a := by
  have hlt := Nat.mod_lt x ha
  rw [alignUp]
  split
  · rename_i h
    exact Nat.dvd_of_mod_eq_zero h
  · refine ⟨x / a + 1, ?_⟩
    have := Nat.mod_add_div x a
    rw [Nat.mul_succ]
    omega

/-- Rounding up gives the least multiple from an offset on. -/
theorem alignUp_le {y : ℕ} (ha : 0 < a) (hy : a ∣ y) (hle : x ≤ y) : alignUp x a ≤ y := by
  obtain ⟨q, rfl⟩ := hy
  have hlt := Nat.mod_lt x ha
  have hx := Nat.mod_add_div x a
  rw [alignUp]
  split
  · exact hle
  · rename_i hne
    have hq : x / a < q := by
      by_contra hnot
      have := Nat.mul_le_mul_left a (Nat.le_of_not_lt hnot)
      omega
    have := Nat.mul_le_mul_left a hq
    rw [Nat.mul_succ] at this
    omega

/-- The padding behind the last member rounds up. -/
theorem paddingBehind_eq (ha : 0 < a) : x + paddingBehind a x = alignUp x a := by
  rw [paddingBehind, alignUp]
  by_cases h : x % a = 0
  · rw [if_neg (fun hand => hand.2 h), if_pos h, Nat.add_zero]
  · rw [if_pos ⟨ha, h⟩, if_neg h]

/-- The padding of a member that is aligned by at most what the cut leaves. -/
theorem paddingBefore_of_le (ha : 0 < a) (hle : a ≤ p) :
    paddingBefore p a x = alignUp x a - x := by
  have hlt := Nat.mod_lt x ha
  rw [paddingBefore, alignUp_sub]
  by_cases h : x % a = 0
  · rw [if_neg (fun hand => hand.2 h), if_pos h]
  · rw [if_pos ⟨ha.ne', h⟩, if_neg h]
    omega

/-- The padding of a member whose alignment `#pragma pack` lessens. -/
theorem paddingBefore_of_lt {q : ℕ} (hp : 0 < p) (ha : a = p * q) (hq : 1 < q) :
    paddingBefore p a x = alignUp x p - x ↔
      p = 1 ∨ x % a = 0 ∨ a - p < x % a ∨ x % p = 1 := by
  have hapos : 0 < a := by
    rw [ha]
    exact Nat.mul_pos hp (by omega)
  have hlta := Nat.mod_lt x hapos
  have hltp := Nat.mod_lt x hp
  -- the offset in the larger unit, in the smaller one
  have hmod : x % a % p = x % p := Nat.mod_mod_of_dvd x ⟨q, ha⟩
  have hsplit := Nat.mod_add_div (x % a) p
  rw [hmod] at hsplit
  have hqlt : x % a / p < q := by
    rw [Nat.div_lt_iff_lt_mul hp, Nat.mul_comm, ← ha]
    exact hlta
  have hstep : p * (x % a / p) + p ≤ a := by
    have := Nat.mul_le_mul_left p hqlt
    rw [Nat.mul_succ, ← ha] at this
    exact this
  rw [paddingBefore, alignUp_sub]
  by_cases h : x % a = 0
  · have hzero : x % p = 0 := by
      rw [← hmod, h, Nat.zero_mod]
    rw [if_neg (fun hand => hand.2 h), if_pos hzero]
    exact iff_of_true rfl (.inr (.inl h))
  rw [if_pos ⟨hapos.ne', h⟩]
  by_cases hlast : a - p < x % a
  · -- the last unit: the distance to its end is what the cut leaves
    have hend : p * (x % a / p) + p = a := by
      have hsucc : q ≤ x % a / p + 1 := by
        by_contra hnot
        have := Nat.mul_le_mul_left p (show x % a / p + 2 ≤ q by omega)
        rw [Nat.mul_add, ← ha] at this
        omega
      have := Nat.mul_le_mul_left p hsucc
      rw [Nat.mul_succ, ← ha] at this
      omega
    have hne : ¬ x % p = 0 := by omega
    rw [if_neg hne]
    exact iff_of_true (by omega) (.inr (.inr (.inl hlast)))
  · have hcut : min (p - 1) (a - x % a) = p - 1 := by omega
    rw [hcut]
    by_cases hzero : x % p = 0
    · rw [if_pos hzero]
      omega
    · rw [if_neg hzero]
      omega

/-- What is computed for a member, with the alignments that there are. -/
theorem paddingBefore_iff {pv k : ℕ} (hp : p ∈ [0, 1, 2, 4, 8, 16]) (ha : a = 2 ^ k)
    (hpv : p ≠ 0 → pv = p) (hle : p = 0 → a ≤ pv) :
    paddingBefore pv a x = alignUp x (packed p a) - x ↔ Rounds p a x := by
  have hapos : 0 < a := ha ▸ Nat.two_pow_pos k
  by_cases h0 : p = 0
  · rw [packed, if_pos h0]
    exact iff_of_true (paddingBefore_of_le hapos (hle h0)) (.inl h0)
  obtain rfl := hpv h0
  rw [packed, if_neg h0, Rounds]
  by_cases hge : a ≤ pv
  · rw [min_eq_left hge]
    exact iff_of_true (paddingBefore_of_le hapos hge) (.inr (.inr (.inl hge)))
  · obtain ⟨j, hj⟩ : ∃ j, pv = 2 ^ j := by
      simp only [List.mem_cons, List.not_mem_nil, or_false, h0, false_or] at hp
      rcases hp with rfl | rfl | rfl | rfl | rfl
      exacts [⟨0, rfl⟩, ⟨1, rfl⟩, ⟨2, rfl⟩, ⟨3, rfl⟩, ⟨4, rfl⟩]
    have hjk : j < k := by
      by_contra hnot
      refine hge ?_
      rw [ha, hj]
      exact Nat.pow_le_pow_right (by decide) (Nat.le_of_not_lt hnot)
    have hq : a = pv * 2 ^ (k - j) := by
      rw [ha, hj, ← pow_add]
      congr 1
      omega
    rw [min_eq_right (Nat.le_of_not_le hge),
      paddingBefore_of_lt (Nat.pos_of_ne_zero h0) hq (Nat.one_lt_two_pow (by omega))]
    simp only [h0, hge, false_or]

end One

/-! ### The members of a struct -/

section Members

variable {p pv av c o : ℕ} {ms : List Member}

@[simp] theorem slots_none : slots (none :: ms) = none :: slots ms := rfl

@[simp] theorem slots_some (m : ℕ × Bytes) :
    slots (some m :: ms) = some (m.1, m.2.length) :: slots ms := rfl

@[simp] theorem oldMembers_none : oldMembers (none :: ms) = oldMembers ms := rfl

@[simp] theorem oldMembers_some (m : ℕ × Bytes) :
    oldMembers (some m :: ms) = (m.2.length, m.1) :: oldMembers ms := rfl

/-- What the padding is computed with goes with `#pragma pack` and the members behind. -/
structure PackFor (p pv : ℕ) (ms : List Member) : Prop where
  mem : p ∈ [0, 1, 2, 4, 8, 16]
  align : ∀ m ∈ oldMembers ms, ∃ k, m.2 = 2 ^ k
  eq : p ≠ 0 → pv = p
  le : p = 0 → ∀ m ∈ oldMembers ms, m.2 ≤ pv

theorem PackFor.tail {m : Member} (h : PackFor p pv (m :: ms)) : PackFor p pv ms := by
  cases m with
  | none => exact ⟨h.mem, h.align, h.eq, h.le⟩
  | some m =>
    exact ⟨h.mem, fun x hx => h.align x (List.mem_cons_of_mem _ hx), h.eq,
      fun h0 x hx => h.le h0 x (List.mem_cons_of_mem _ hx)⟩

/-- What is computed for the first member. -/
theorem PackFor.rounds_iff {m : ℕ × Bytes} (h : PackFor p pv (some m :: ms)) :
    paddingBefore pv m.1 o = alignUp o (packed p m.1) - o ↔ Rounds p m.1 o := by
  obtain ⟨k, hk⟩ := h.align (m.2.length, m.1) List.mem_cons_self
  exact paddingBefore_iff h.mem hk h.eq fun h0 => h.le h0 _ List.mem_cons_self

/-- The members are at the offsets of the layout when each is rounded up. -/
theorem paddedOffsets_iff (h : PackFor p pv ms) :
    paddedOffsets o (paddingSizes pv av o (slots ms)) (slots ms) =
      memberOffsets p o (oldMembers ms) ↔ RoundsFrom p o (oldMembers ms) := by
  induction ms generalizing o with
  | nil => exact iff_of_true rfl trivial
  | cons m ms ih =>
    cases m with
    | none =>
      rw [slots_none, oldMembers_none, paddingSizes, paddedOffsets]
      exact ih h.tail
    | some m =>
      have hle := le_alignUp o (packed p m.1)
      rw [slots_some, oldMembers_some, paddingSizes]
      rw [paddedOffsets, memberOffsets, RoundsFrom, List.cons_eq_cons, ← h.rounds_iff]
      constructor
      · rintro ⟨hhead, htail⟩
        refine ⟨by omega, (ih h.tail).mp ?_⟩
        rwa [hhead] at htail
      · rintro ⟨hhead, htail⟩
        have hoff : o + paddingBefore pv m.1 o = alignUp o (packed p m.1) := by omega
        rw [hoff]
        exact ⟨rfl, (ih h.tail).mpr htail⟩

/-- The offset behind the last member, as the computation has it. -/
def paddedEnd (pv : ℕ) : ℕ → List (Option (ℕ × ℕ)) → ℕ
  | offset, [] => offset
  | offset, none :: ss => paddedEnd pv offset ss
  | offset, some (a, size) :: ss => paddedEnd pv (offset + paddingBefore pv a offset + size) ss

theorem paddingSizes_eq_cons (pv av o : ℕ) (ss : List (Option (ℕ × ℕ))) :
    ∃ q qs, paddingSizes pv av o ss = q :: qs := by
  have hlen := paddingSizes_length pv av o ss
  cases hpads : paddingSizes pv av o ss with
  | nil =>
    rw [hpads] at hlen
    cases hlen
  | cons q qs => exact ⟨q, qs, rfl⟩

/-- How much is written. -/
theorem writePadded_length :
    o + (paddingSizes pv av o (slots ms)).headD 0 +
        (writePadded ms (paddingSizes pv av o (slots ms)).tail).length =
      paddedEnd pv o (slots ms) + paddingBehind av (paddedEnd pv o (slots ms)) := by
  induction ms generalizing o with
  | nil => rfl
  | cons m ms ih =>
    cases m with
    | none =>
      have ih := ih (o := o)
      obtain ⟨q, qs, hpads⟩ := paddingSizes_eq_cons pv av o (slots ms)
      rw [hpads] at ih
      rw [slots_none, paddingSizes, hpads, paddedEnd, ← ih]
      simp only [List.headD_cons, List.tail_cons, writePadded, Member.bytes, List.length_append,
        List.length_replicate, Option.map_none, Option.getD_none, List.length_nil]
      omega
    | some m =>
      have ih := ih (o := o + paddingBefore pv m.1 o + m.2.length)
      obtain ⟨q, qs, hpads⟩ := paddingSizes_eq_cons pv av
        (o + paddingBefore pv m.1 o + m.2.length) (slots ms)
      rw [hpads] at ih
      rw [slots_some, paddingSizes]
      rw [hpads, paddedEnd, ← ih]
      simp only [List.headD_cons, List.tail_cons, writePadded, Member.bytes, List.length_append,
        List.length_replicate, Option.map_some, Option.getD_some]
      omega

/-- Where the members are rounded up, the computation ends where the layout does. -/
theorem paddedEnd_eq (h : PackFor p pv ms) (hR : RoundsFrom p o (oldMembers ms)) :
    paddedEnd pv o (slots ms) = membersEnd p o (oldMembers ms) := by
  induction ms generalizing o with
  | nil => rfl
  | cons m ms ih =>
    cases m with
    | none => exact ih h.tail hR
    | some m =>
      have hle := le_alignUp o (packed p m.1)
      have hpad := h.rounds_iff.mpr hR.1
      have hoff : o + paddingBefore pv m.1 o = alignUp o (packed p m.1) := by omega
      rw [slots_some, oldMembers_some, paddedEnd, membersEnd, hoff]
      exact ih h.tail hR.2

/-- Where the members are rounded up, what is written is the image up to the padding at the end. -/
theorem writePadded_eq (h : PackFor p pv ms) (hR : RoundsFrom p o (oldMembers ms))
    (hend : paddingBehind av (membersEnd p o (oldMembers ms)) =
      alignUp (membersEnd p o (oldMembers ms)) c - membersEnd p o (oldMembers ms)) :
    List.replicate ((paddingSizes pv av o (slots ms)).headD 0) 0 ++
        writePadded ms (paddingSizes pv av o (slots ms)).tail = oldImageFrom p c o ms := by
  induction ms generalizing o with
  | nil =>
    change List.replicate (paddingBehind av o) 0 ++ [] = List.replicate (alignUp o c - o) 0
    rw [List.append_nil]
    congr 1
  | cons m ms ih =>
    cases m with
    | none =>
      have ih := ih h.tail hR hend
      obtain ⟨q, qs, hpads⟩ := paddingSizes_eq_cons pv av o (slots ms)
      rw [hpads] at ih
      rw [slots_none, paddingSizes, hpads, oldImageFrom, ← ih]
      rfl
    | some m =>
      have hle := le_alignUp o (packed p m.1)
      have hpad := h.rounds_iff.mpr hR.1
      have hoff : o + paddingBefore pv m.1 o = alignUp o (packed p m.1) := by omega
      have ih := ih h.tail hR.2 hend
      obtain ⟨q, qs, hpads⟩ := paddingSizes_eq_cons pv av
        (alignUp o (packed p m.1) + m.2.length) (slots ms)
      rw [hpads] at ih
      rw [slots_some, paddingSizes]
      rw [hoff, hpads, oldImageFrom, ← ih, hpad]
      simp only [List.headD_cons, List.tail_cons, writePadded, Member.bytes, Option.map_some,
        Option.getD_some, List.append_assoc]

end Members

/-! ### The whole struct -/

section Whole

variable {pack alignas : ℕ} {ms : List Member}

theorem le_foldr_max {l : List ℕ} {b x : ℕ} (h : x ∈ l) : x ≤ l.foldr max b := by
  induction l with
  | nil => cases h
  | cons y l ih =>
    rw [List.foldr_cons]
    rcases List.mem_cons.mp h with rfl | h
    · exact le_max_left _ _
    · exact (ih h).trans (le_max_right _ _)

/-- The largest of numbers that divide another divides it. -/
theorem foldr_max_dvd {l : List ℕ} {b n : ℕ} (hb : b ∣ n) (h : ∀ x ∈ l, x ∣ n) :
    l.foldr max b ∣ n := by
  induction l with
  | nil => exact hb
  | cons y l ih =>
    rw [List.foldr_cons]
    rcases max_choice y (l.foldr max b) with hmax | hmax
    · rw [hmax]
      exact h y List.mem_cons_self
    · rw [hmax]
      exact ih fun x hx => h x (List.mem_cons_of_mem _ hx)

/-- The alignments of the members, as both sides have them. -/
theorem largestAlignment_slots :
    largestAlignment (slots ms) = ((oldMembers ms).map Prod.snd).foldr max 0 := by
  induction ms with
  | nil => rfl
  | cons m ms ih =>
    cases m with
    | none =>
      rw [slots_none, oldMembers_none, ← ih]
      exact Nat.zero_max _
    | some m =>
      rw [slots_some, oldMembers_some, List.map_cons, List.foldr_cons, ← ih]
      rfl

theorem Allowed.packFor (h : Allowed pack alignas ms) :
    PackFor pack (packAlignmentV pack (slots ms)) ms where
  mem := h.pack_mem
  align := h.align
  eq h0 := by rw [packAlignmentV, if_neg h0]
  le h0 m hm := by
    rw [packAlignmentV, if_pos h0, largestAlignment_slots]
    exact le_foldr_max (List.mem_map_of_mem hm)

theorem classAlign_pos (pack alignas : ℕ) (l : List (ℕ × ℕ)) : 0 < classAlign pack alignas l := by
  have hone : ∀ l : List ℕ, 0 < l.foldr max 1 := by
    intro l
    induction l with
    | nil => exact Nat.one_pos
    | cons x l ih => exact ih.trans_le (le_max_right _ _)
  exact (hone _).trans_le (le_max_right _ _)

/-- Without `#pragma pack` and `alignas` the alignment is the largest one of a member. -/
theorem classAlign_default (hal : ∀ m ∈ oldMembers ms, ∃ k, m.2 = 2 ^ k)
    (hne : oldMembers ms ≠ []) :
    classAlign 0 0 (oldMembers ms) = largestAlignment (slots ms) := by
  have hpos : ∀ l : List ℕ, l ≠ [] → (∀ x ∈ l, 0 < x) → l.foldr max 1 = l.foldr max 0 := by
    intro l
    induction l with
    | nil => exact fun h => absurd rfl h
    | cons x l ih =>
      intro _ h
      have hx := h x List.mem_cons_self
      rw [List.foldr_cons, List.foldr_cons]
      rcases l.eq_nil_or_concat with rfl | ⟨l', y, hl⟩
      · simp only [List.foldr_nil]
        omega
      · rw [ih (by simp [hl]) fun z hz => h z (List.mem_cons_of_mem _ hz)]
  have hpacked : packed 0 = id := by
    funext a
    rw [packed, if_pos rfl, id]
  rw [classAlign, largestAlignment_slots, Nat.zero_max, hpacked]
  refine hpos _ (by simpa using hne) fun x hx => ?_
  obtain ⟨m, hm, rfl⟩ := List.mem_map.mp hx
  obtain ⟨k, hk⟩ := hal m hm
  rw [id, hk]
  exact Nat.two_pow_pos k

/-- The alignment of the old struct divides the value of `#pragma pack`. -/
theorem classAlign_dvd (hpack : pack ∈ [0, 1, 2, 4, 8, 16])
    (hal : ∀ m ∈ oldMembers ms, ∃ k, m.2 = 2 ^ k) :
    classAlign pack 0 (oldMembers ms) ∣ pack := by
  rw [classAlign, Nat.zero_max]
  refine foldr_max_dvd (Nat.one_dvd _) fun x hx => ?_
  obtain ⟨m, hm, rfl⟩ := List.mem_map.mp hx
  obtain ⟨k, hk⟩ := hal m hm
  rw [packed, hk]
  by_cases h0 : pack = 0
  · rw [h0]
    exact Nat.dvd_zero _
  rw [if_neg h0]
  rcases le_total (2 ^ k) pack with hle | hle
  · obtain ⟨j, hj⟩ : ∃ j, pack = 2 ^ j := by
      simp only [List.mem_cons, List.not_mem_nil, or_false, h0, false_or] at hpack
      rcases hpack with rfl | rfl | rfl | rfl | rfl
      exacts [⟨0, rfl⟩, ⟨1, rfl⟩, ⟨2, rfl⟩, ⟨3, rfl⟩, ⟨4, rfl⟩]
    rw [min_eq_left hle, hj]
    rw [hj] at hle
    exact Nat.pow_dvd_pow 2 ((Nat.pow_le_pow_iff_right (by decide)).mp hle)
  · rw [min_eq_right hle]

/-- Rounding up to a multiple gives the same when the result is one already. -/
theorem alignUp_eq_iff {x a b : ℕ} (hb : 0 < b) (hab : a ∣ b) :
    alignUp x b = alignUp x a ↔ b ∣ alignUp x a := by
  have ha : 0 < a := Nat.pos_of_dvd_of_pos hab hb
  constructor
  · intro h
    rw [← h]
    exact dvd_alignUp hb
  · intro h
    refine le_antisymm (alignUp_le hb h (le_alignUp x a)) ?_
    exact alignUp_le ha (hab.trans (dvd_alignUp hb)) (le_alignUp x b)

/-- The total that is written. -/
theorem writePadded_structPadding_length :
    (writePadded ms (structPadding pack alignas (slots ms)).tail).length =
      paddedEnd (packAlignmentV pack (slots ms)) 0 (slots ms) +
        paddingBehind (alignmentV pack alignas (slots ms))
          (paddedEnd (packAlignmentV pack (slots ms)) 0 (slots ms)) := by
  have hhead := paddingSizes_head (packAlignmentV pack (slots ms))
    (alignmentV pack alignas (slots ms)) (slots ms)
  rw [← writePadded_length, structPadding]
  obtain ⟨q, qs, hpads⟩ := paddingSizes_eq_cons (packAlignmentV pack (slots ms))
    (alignmentV pack alignas (slots ms)) 0 (slots ms)
  rw [hpads] at hhead ⊢
  obtain rfl : q = 0 := Option.some.inj hhead
  simp only [List.headD_cons, List.tail_cons, Nat.zero_add]

/-- A struct without an alignment has no members. -/
theorem alignmentV_pos (h : Allowed pack alignas ms) (hne : oldMembers ms ≠ []) :
    0 < alignmentV pack alignas (slots ms) := by
  rw [alignmentV]
  split
  · omega
  rw [packAlignmentV]
  split
  · rw [← classAlign_default h.align hne]
    exact classAlign_pos _ _ _
  · omega

theorem paddedEnd_of_nil {pv : ℕ} (h : oldMembers ms = []) (o : ℕ) :
    paddedEnd pv o (slots ms) = o := by
  induction ms with
  | nil => rfl
  | cons m ms ih =>
    cases m with
    | none => exact ih h
    | some m => cases h

/-- The total is a multiple of the alignment. -/
theorem alignmentV_dvd (h : Allowed pack alignas ms) : alignmentV pack alignas (slots ms) ∣
    (writePadded ms (structPadding pack alignas (slots ms)).tail).length := by
  rw [writePadded_structPadding_length]
  by_cases hne : oldMembers ms = []
  · rw [paddedEnd_of_nil hne, paddingBehind, if_neg (fun hand => hand.2 (Nat.zero_mod _))]
    exact Nat.dvd_zero _
  · rw [paddingBehind_eq (alignmentV_pos h hne)]
    exact dvd_alignUp (alignmentV_pos h hne)

/-- The padding at the end is that of the layout, unless only `#pragma pack` has been declared and
its value is larger than the members need. -/
theorem total_iff (h : Allowed pack alignas ms) :
    membersEnd pack 0 (oldMembers ms) + paddingBehind (alignmentV pack alignas (slots ms))
        (membersEnd pack 0 (oldMembers ms)) = classSize pack alignas (oldMembers ms) ↔
      (alignas = 0 → pack ≠ 0 → pack ∣ classSize pack 0 (oldMembers ms)) := by
  rw [classSize, alignmentV]
  by_cases hal : alignas = 0
  · subst hal
    rw [if_neg (fun h => h rfl), packAlignmentV]
    by_cases h0 : pack = 0
    · subst h0
      rw [if_pos rfl]
      refine iff_of_true ?_ fun _ hne => absurd rfl hne
      by_cases hne : oldMembers ms = []
      · rw [hne, membersEnd, alignUp_zero, paddingBehind,
          if_neg (fun hand => hand.2 (Nat.zero_mod _))]
      · rw [← classAlign_default h.align hne, paddingBehind_eq (classAlign_pos _ _ _)]
    · rw [if_neg h0, paddingBehind_eq (Nat.pos_of_ne_zero h0),
        alignUp_eq_iff (Nat.pos_of_ne_zero h0) (classAlign_dvd h.pack_mem h.align)]
      exact ⟨fun hdvd _ _ => hdvd, fun hdvd => hdvd rfl h0⟩
  · rw [if_pos hal, (h.alignas_eq hal).2, paddingBehind_eq (Nat.pos_of_ne_zero hal)]
    exact iff_of_true rfl fun h0 => absurd h0 hal

/-- The padding is that of the old struct when each of its members is rounded up as it should be,
and its size is a multiple of a `#pragma pack` that stands without `alignas`. -/
theorem paddingSpec_iff (h : Allowed pack alignas ms) : PaddingSpec pack alignas ms ↔
    RoundsFrom pack 0 (oldMembers ms) ∧
      (alignas = 0 → pack ≠ 0 → pack ∣ classSize pack 0 (oldMembers ms)) := by
  constructor
  · intro hspec
    have hR := (paddedOffsets_iff h.packFor).mp hspec.offsets
    have htotal := hspec.total
    rw [writePadded_structPadding_length, paddedEnd_eq h.packFor hR] at htotal
    exact ⟨hR, (total_iff h).mp htotal⟩
  · rintro ⟨hR, hdvd⟩
    have htotal := (total_iff h).mpr hdvd
    have hhead := paddingSizes_head (packAlignmentV pack (slots ms))
      (alignmentV pack alignas (slots ms)) (slots ms)
    refine ⟨(paddedOffsets_iff h.packFor).mpr hR, alignmentV_dvd h, ?_, ?_⟩
    · rw [writePadded_structPadding_length, paddedEnd_eq h.packFor hR, htotal]
    · have hend : paddingBehind (alignmentV pack alignas (slots ms))
          (membersEnd pack 0 (oldMembers ms)) =
          alignUp (membersEnd pack 0 (oldMembers ms)) (classAlign pack alignas (oldMembers ms)) -
            membersEnd pack 0 (oldMembers ms) := by
        rw [classSize] at htotal
        omega
      have himage := writePadded_eq h.packFor hR hend
      rw [structPadding, oldImage, ← himage]
      obtain ⟨q, qs, hpads⟩ := paddingSizes_eq_cons (packAlignmentV pack (slots ms))
        (alignmentV pack alignas (slots ms)) 0 (slots ms)
      rw [hpads] at hhead ⊢
      obtain rfl : q = 0 := Option.some.inj hhead
      rfl

/-- `char` and `int` under `#pragma pack(2)`, with a `compatible` member between them. -/
theorem paddingSpec_charInt : PaddingSpec 2 0 [some (1, [1]), none, some (4, [3, 4, 5, 6])] := by
  have hallowed : Allowed 2 0 [some (1, [1]), none, some (4, [3, 4, 5, 6])] := by
    refine ⟨by decide, ?_, fun h => absurd rfl h⟩
    intro m hm
    rcases List.mem_cons.mp hm with rfl | hm
    · exact ⟨0, rfl⟩
    · obtain rfl := List.mem_singleton.mp hm
      exact ⟨2, rfl⟩
  have hrounds : RoundsFrom 2 0 (oldMembers [some (1, [1]), none, some (4, [3, 4, 5, 6])]) :=
    ⟨.inr (.inr (.inl (by decide))), .inr (.inr (.inr (.inr (.inr (by decide))))), trivial⟩
  exact (paddingSpec_iff hallowed).mpr ⟨hrounds, fun _ _ => by decide⟩

/-- `short` and `int` under `#pragma pack(2)`, with a `compatible` member between them: the `int`
belongs behind the `short`. -/
theorem not_paddingSpec_shortInt :
    Allowed 2 0 [some (2, [1, 2]), none, some (4, [3, 4, 5, 6])] ∧
      ¬ PaddingSpec 2 0 [some (2, [1, 2]), none, some (4, [3, 4, 5, 6])] := by
  refine ⟨⟨by decide, ?_, fun h => absurd rfl h⟩, fun h => ?_⟩
  · intro m hm
    rcases List.mem_cons.mp hm with rfl | hm
    · exact ⟨1, rfl⟩
    · obtain rfl := List.mem_singleton.mp hm
      exact ⟨2, rfl⟩
  · exact absurd h.offsets (by decide)

end Whole

/-! ### Structs of a program -/

namespace TypeEnv

variable {Γ : TypeEnv} {w : ℕ}

/-- The padding of a struct in the table of a program. -/
theorem structLayout_paddingSize {ls : List Layout} {d : StructDef} {tag : SpConfig}
    (h : (structLayout ls d tag).trivial = false) :
    (structLayout ls d tag).paddingSize =
      structPadding d.packAlignment d.alignment (d.fields.map (paddedMember ls)) := by
  have hmap : (fun s : Option (ℕ × ℕ) => (s.map Prod.fst).getD 0) ∘ paddedMember ls =
      alignmentIn ls := by
    funext t
    rw [Function.comp_apply, paddedMember]
    cases t <;> rfl
  have hdefault : defaultPackAlignment ls d.fields =
      largestAlignment (d.fields.map (paddedMember ls)) := by
    rw [defaultPackAlignment, largestAlignment, List.map_map, hmap]
  simp only [structLayout] at h ⊢
  simp only [structPadding, alignmentV, h, hdefault, Bool.false_eq_true, if_false]
  rfl

/-- The members of a struct that are written, as bytes. -/
def writtenMembers (Γ : TypeEnv) (ls : List Layout) (w : ℕ) (ts : List Ty) (xs : List Val) :
    List Member :=
  (ts.zip xs).map fun p =>
    if p.1.isCompatible then none
    else some (alignmentIn ls p.1, Γ.serializeOne w SpConfig.DEFAULT p.1 p.2)

/-- The members are written one after the other, each with the padding behind it. -/
theorem serializePadded_eq (ls : List Layout) {ts : List Ty} {xs : List Val}
    (hlen : ts.length = xs.length) (ps : List ℕ) :
    Γ.serializePadded w ts ps xs = writePadded (writtenMembers Γ ls w ts xs) ps := by
  induction ts generalizing xs ps with
  | nil => simp [serializePadded, writtenMembers, writePadded]
  | cons t ts ih =>
    cases xs with
    | nil => cases hlen
    | cons x xs =>
      cases ps with
      | nil => simp [serializePadded, writtenMembers, writePadded]
      | cons p ps =>
        have hbytes : Γ.serializeOne w SpConfig.DEFAULT t x = Member.bytes
            (if t.isCompatible then none
              else some (alignmentIn ls t, Γ.serializeOne w SpConfig.DEFAULT t x)) := by
          cases t <;> simp [Ty.isCompatible, Member.bytes, serializeOne]
        rw [serializePadded, ih (Nat.succ.inj hlen), hbytes]
        rfl

/-- The members are as long as they are taken for. -/
theorem slots_writtenMembers {ls : List Layout} {ts : List Ty} {xs : List Val}
    (hlen : ts.length = xs.length)
    (hsize : ∀ p ∈ ts.zip xs, p.1.isCompatible = false →
      (Γ.serializeOne w SpConfig.DEFAULT p.1 p.2).length = objSizeIn ls p.1) :
    slots (writtenMembers Γ ls w ts xs) = ts.map (paddedMember ls) := by
  induction ts generalizing xs with
  | nil => rfl
  | cons t ts ih =>
    cases xs with
    | nil => cases hlen
    | cons x xs =>
      have htail := ih (Nat.succ.inj hlen) fun p hp => hsize p (List.mem_cons_of_mem _ hp)
      rw [List.map_cons, ← htail, paddedMember]
      cases hc : t.isCompatible with
      | true => simp [writtenMembers, slots, hc]
      | false =>
        have := hsize (t, x) List.mem_cons_self hc
        simp [writtenMembers, slots, hc, this]

/-- A struct with `compatible` members is written as the old struct is in memory, where the padding
is that of the old struct. -/
theorem serializeOne_eq_oldImage {name : ℕ} {d : StructDef} {tag : SpConfig} {xs : List Val}
    (hd : Γ.structs[name]? = some d) (hlen : d.fields.length = xs.length)
    (htriv : Γ.isTrivialSerializable (.struct name) = false)
    (hpad : Γ.isTrivialIgnoringCompatible (.struct name) = true) :
    ∃ ls, ls <+: Γ.layouts ∧
      ((∀ p ∈ d.fields.zip xs, p.1.isCompatible = false →
          (Γ.serializeOne w SpConfig.DEFAULT p.1 p.2).length = objSizeIn ls p.1) →
        PaddingSpec d.packAlignment d.alignment (writtenMembers Γ ls w d.fields xs) →
        Γ.serializeOne w tag (.struct name) (.list xs) =
          oldImage d.packAlignment d.alignment (writtenMembers Γ ls w d.fields xs)) := by
  obtain ⟨ls, hpre, hrow⟩ := Γ.layouts_getElem? hd
  refine ⟨ls, hpre, fun hsize hspec => ?_⟩
  have hnot : (structLayout ls d (Γ.getTypeConfig (.struct name))).trivial = false := by
    simpa [isTrivialSerializable, isTrivialSerializableIn, hrow] using htriv
  have hsizes : Γ.paddingSize (.struct name) =
      structPadding d.packAlignment d.alignment (slots (writtenMembers Γ ls w d.fields xs)) := by
    rw [slots_writtenMembers hlen hsize, ← structLayout_paddingSize hnot]
    simp only [paddingSize, hrow, Option.map_some, Option.getD_some]
  have hfields : Γ.fields name = d.fields := by simp [fields, hd]
  rw [serializeOne, serializeClass, if_pos hpad, hsizes, hfields, serializePadded_eq ls hlen,
    hspec.image]

end TypeEnv

end Yalantinglibs.StructPack
