import Yalantinglibs.Data.BinarySearch
import Yalantinglibs.Data.ExchangeSort
import Mathlib.Data.List.Count
import Mathlib.Data.List.Nodup
import Mathlib.Data.Nat.Find

/-!
# Derived classes

`struct_pack/derived_helper.hpp`: the table of the type codes of a list of derived classes, in which
the class of a serialized object is looked up. A list with two equal codes is to be rejected when
it is compiled; the check returns the index of a class with a code that is given twice, where 0
stands for no such class. So it overlooks a list for which it comes to the first class.

## Main definitions

* `calculateMd5` — the table, in the order of the codes
* `hasHashCollision` — the check
* `searchTypeByMd5` — the class of a code
* `Overlooked` — the check comes to the first class

## Main results

* `hasHashCollision_eq_zero_iff` — which lists pass the check
* `searchTypeByMd5_of_getElem?`, `searchTypeByMd5_of_notMem` — the search in a table without
  equal codes
* `dispatches_iff` — check and search are right if and only if the list is not overlooked
-/

set_option autoImplicit false

namespace Yalantinglibs.StructPack

open ExchangeSort BinarySearch

/-- `MD5_pair`: the code of a class, and its place in the list. -/
structure MD5Pair where
  md5 : UInt32
  index : ℕ
deriving DecidableEq, Repr

/-- What `MD5_pair` is compared by. -/
def MD5Pair.key (p : MD5Pair) : ℕ := p.md5.toNat

/-- The classes in the order of the list. -/
def md5Pairs (codes : List UInt32) : List MD5Pair := codes.zipIdx.map fun p => ⟨p.1, p.2⟩

/-- `compile_time_sort`. -/
def compileTimeSort (array : List MD5Pair) : List MD5Pair := exchangeLoops MD5Pair.key array

/-- `MD5_set::calculate_md5`. -/
def calculateMd5 (codes : List UInt32) : List MD5Pair := compileTimeSort (md5Pairs codes)

/-- `MD5_set::has_hash_collision_impl`, on a table. -/
def hasHashCollisionImpl : List MD5Pair → ℕ
  | a :: b :: value => if a.md5 = b.md5 then b.index else hasHashCollisionImpl (b :: value)
  | _ => 0

/-- `MD5_set::has_hash_collision`. -/
def hasHashCollision (codes : List UInt32) : ℕ := hasHashCollisionImpl (calculateMd5 codes)

/-- `search_type_by_md5`: the index, and `ok`. -/
def searchTypeByMd5 (codes : List UInt32) (id : UInt32) : ℕ × Bool :=
  let md5s := calculateMd5 codes
  match md5s[place MD5Pair.key md5s ⟨id, 0⟩]? with
  | some result => if result.md5 = id then (result.index, true) else (md5s.length, false)
  | none => (md5s.length, false)

/-! ### The table -/

section Table

variable {codes : List UInt32} {p q : MD5Pair} {id : UInt32}

theorem MD5Pair.key_inj : p.key = q.key ↔ p.md5 = q.md5 := UInt32.toNat_inj

theorem mem_md5Pairs : p ∈ md5Pairs codes ↔ codes[p.index]? = some p.md5 := by
  rw [md5Pairs, List.mem_map]
  constructor
  · rintro ⟨⟨c, i⟩, hmem, rfl⟩
    exact List.mk_mem_zipIdx_iff_getElem?.mp hmem
  · intro h
    exact ⟨(p.md5, p.index), List.mk_mem_zipIdx_iff_getElem?.mpr h, rfl⟩

theorem map_md5_md5Pairs (codes : List UInt32) : (md5Pairs codes).map MD5Pair.md5 = codes := by
  rw [md5Pairs, List.map_map]
  exact List.zipIdx_map_fst 0 codes

theorem calculateMd5_perm (codes : List UInt32) : (calculateMd5 codes).Perm (md5Pairs codes) := by
  rw [calculateMd5, compileTimeSort, exchangeLoops_eq]
  exact exchangeSort_perm _

theorem mem_calculateMd5 : p ∈ calculateMd5 codes ↔ codes[p.index]? = some p.md5 := by
  rw [(calculateMd5_perm codes).mem_iff, mem_md5Pairs]

theorem pairwise_calculateMd5 (codes : List UInt32) :
    (calculateMd5 codes).Pairwise fun a b => a.key ≤ b.key := by
  rw [calculateMd5, compileTimeSort, exchangeLoops_eq]
  exact pairwise_exchangeSort _

theorem map_md5_calculateMd5_perm (codes : List UInt32) :
    ((calculateMd5 codes).map MD5Pair.md5).Perm codes := by
  have hperm := (calculateMd5_perm codes).map MD5Pair.md5
  rwa [map_md5_md5Pairs] at hperm

/-- How often a code is in the table. -/
theorem length_filter_key (codes : List UInt32) (c : UInt32) :
    ((calculateMd5 codes).filter fun a => a.key = c.toNat).length = codes.count c := by
  rw [← (map_md5_calculateMd5_perm codes).count_eq, List.count, List.countP_map,
    List.countP_eq_length_filter]
  apply congrArg List.length
  apply List.filter_congr
  intro a _
  rw [Function.comp_apply, MD5Pair.key, Bool.beq_eq_decide_eq]
  exact decide_eq_decide.mpr UInt32.toNat_inj

/-- Without equal codes the table is in strict order. -/
theorem pairwise_lt_calculateMd5 (h : codes.Nodup) :
    (calculateMd5 codes).Pairwise fun a b => a.key < b.key := by
  have hnodup : ((calculateMd5 codes).map MD5Pair.md5).Nodup :=
    (map_md5_calculateMd5_perm codes).nodup_iff.mpr h
  rw [List.Nodup, List.pairwise_map] at hnodup
  apply (pairwise_calculateMd5 codes).imp₂ _ hnodup
  intro a b hle hne
  exact lt_of_le_of_ne hle fun heq => hne (MD5Pair.key_inj.mp heq)

/-! ### The search -/

/-- A table in strict order holds the place of a code that is looked for. -/
theorem searchTypeByMd5_of_getElem? (h : codes.Nodup) {i : ℕ} (hi : codes[i]? = some id) :
    searchTypeByMd5 codes id = (i, true) := by
  have hsorted := pairwise_lt_calculateMd5 h
  obtain ⟨pre, post, hcut, hplace, hpre, hpost⟩ := place_eq ⟨id, 0⟩ hsorted
  have hmem : (⟨id, i⟩ : MD5Pair) ∈ pre ++ post := by
    rw [← hcut]
    exact mem_calculateMd5.mpr hi
  obtain hmem | hmem := List.mem_append.mp hmem
  · exact absurd (hpre _ hmem) (Nat.lt_irrefl _)
  · cases post with
    | nil => simp at hmem
    | cons result post =>
      -- what stands before the class in the rest of the table would have a smaller code
      have hresult : result = ⟨id, i⟩ := by
        obtain hfirst | hlater := List.mem_cons.mp hmem
        · exact hfirst.symm
        · rw [hcut] at hsorted
          have hlt := (List.pairwise_cons.mp (List.pairwise_append.mp hsorted).2.1).1 _ hlater
          exact absurd (hpost result List.mem_cons_self) (Nat.not_le_of_lt hlt)
      have hget : (calculateMd5 codes)[place MD5Pair.key (calculateMd5 codes) ⟨id, 0⟩]? =
          some ⟨id, i⟩ := by
        rw [hplace, hcut, List.getElem?_append_right (Nat.le_refl _), Nat.sub_self, hresult]
        rfl
      rw [searchTypeByMd5, hget]
      exact if_pos rfl

/-- A code that is not in the list is not found. -/
theorem searchTypeByMd5_of_notMem (h : id ∉ codes) : (searchTypeByMd5 codes id).2 = false := by
  rw [searchTypeByMd5]
  split
  · rename_i result hget
    have hmem := mem_calculateMd5.mp (List.mem_of_getElem? hget)
    rw [if_neg]
    rintro rfl
    exact h (List.mem_of_getElem? hmem)
  · rfl

end Table

/-! ### The check -/

section Check

variable {codes : List UInt32} {s : List MD5Pair} {a b : MD5Pair} {rest : List MD5Pair} {c : UInt32}

theorem hasHashCollisionImpl_of_pairwise (h : s.Pairwise fun a b => a.key < b.key) :
    hasHashCollisionImpl s = 0 := by
  induction s with
  | nil => rfl
  | cons a s ih =>
    obtain ⟨hall, hs⟩ := List.pairwise_cons.mp h
    cases s with
    | nil => rfl
    | cons b s =>
      have hlt := hall b List.mem_cons_self
      have hne : a.md5 ≠ b.md5 := fun heq => Nat.ne_of_lt hlt (MD5Pair.key_inj.mpr heq)
      rw [hasHashCollisionImpl, if_neg hne]
      exact ih hs

/-- In a table in order the check comes to the second class of the smallest code that is given
twice. -/
theorem hasHashCollisionImpl_eq (hsorted : s.Pairwise fun a b => a.key ≤ b.key) {c : ℕ}
    (hfilter : s.filter (fun a => a.key = c) = a :: b :: rest)
    (hmin : ∀ k < c, (s.filter fun a => a.key = k).length ≤ 1) :
    hasHashCollisionImpl s = b.index := by
  induction s with
  | nil => cases hfilter
  | cons x s ih =>
    obtain ⟨hall, hs⟩ := List.pairwise_cons.mp hsorted
    cases s with
    | nil =>
      have hlen := congrArg List.length hfilter
      have hle := List.length_filter_le (fun a : MD5Pair => decide (a.key = c)) [x]
      rw [hlen] at hle
      simp at hle
    | cons y s =>
      have hxc : x.key ≤ c := by
        have ha : a ∈ (x :: y :: s).filter fun a => a.key = c := by
          rw [hfilter]
          exact List.mem_cons_self
        obtain ⟨hmem, hkey⟩ := List.mem_filter.mp ha
        obtain rfl | hmem := List.mem_cons.mp hmem
        · exact (of_decide_eq_true hkey).le
        · exact (hall a hmem).trans (of_decide_eq_true hkey).le
      by_cases heq : x.md5 = y.md5
      · have hy : y.key = x.key := MD5Pair.key_inj.mpr heq.symm
        have hx : x.key = c := by
          by_contra hne
          have hone := hmin x.key (lt_of_le_of_ne hxc hne)
          rw [List.filter_cons_of_pos (by simp), List.filter_cons_of_pos (by simp [hy])] at hone
          simp at hone
        rw [List.filter_cons_of_pos (by simp [hx]),
          List.filter_cons_of_pos (by simp [hy, hx])] at hfilter
        rw [hasHashCollisionImpl, if_pos heq, (List.cons.inj (List.cons.inj hfilter).2).1]
      · have hlt : x.key < y.key := by
          apply lt_of_le_of_ne (hall y List.mem_cons_self)
          exact fun h => heq (MD5Pair.key_inj.mp h)
        have hx : x.key ≠ c := by
          rintro rfl
          -- behind a smaller class there is no other one of its code
          have hnone : (y :: s).filter (fun a => a.key = x.key) = [] := by
            rw [List.filter_eq_nil_iff]
            intro z hz
            have hyz : y.key ≤ z.key := by
              obtain rfl | hz := List.mem_cons.mp hz
              · exact le_refl _
              · exact (List.pairwise_cons.mp hs).1 z hz
            rw [decide_eq_true_eq]
            exact (hlt.trans_le hyz).ne'
          rw [List.filter_cons_of_pos (by simp), hnone] at hfilter
          simp at hfilter
        rw [hasHashCollisionImpl, if_neg heq]
        apply ih hs
        · rw [List.filter_cons_of_neg (by simpa using hx)] at hfilter
          exact hfilter
        · intro k hk
          apply le_trans _ (hmin k hk)
          exact ((List.sublist_cons_self x (y :: s)).filter _).length_le

/-- How the place of the first class among those of its code `c` is changed by the classes behind
it, with the number of classes of the code so far. -/
def placeOfFirst (c : UInt32) : ℕ × ℕ → List UInt32 → ℕ × ℕ
  | state, [] => state
  | (p, n), d :: codes =>
    if d = c then placeOfFirst c (p, n + 1) codes
    else if d < c then placeOfFirst c (if p = 0 then n - 1 else p - 1, n) codes
    else placeOfFirst c (p, n) codes

/-- No class of a list is the first one. -/
def NoneFirst (s : List MD5Pair) : Prop := ∀ a ∈ s, a.index ≠ 0

theorem NoneFirst.append {t : List MD5Pair} (hs : NoneFirst s) (ht : NoneFirst t) :
    NoneFirst (s ++ t) := by
  intro a ha
  obtain ha | ha := List.mem_append.mp ha
  · exact hs a ha
  · exact ht a ha

/-- The place of the first class is where the sort leaves it. -/
theorem exists_arrange_eq {u v : List MD5Pair} {first : MD5Pair} (hu : NoneFirst u)
    (hv : NoneFirst v) (hrest : NoneFirst rest) :
    ∃ u' v', arrange MD5Pair.key c.toNat (u ++ first :: v) rest = u' ++ first :: v' ∧
      u'.length = (placeOfFirst c (u.length, (u ++ first :: v).length) (rest.map MD5Pair.md5)).1 ∧
      NoneFirst u' ∧ NoneFirst v' := by
  induction rest generalizing u v with
  | nil => exact ⟨u, v, rfl, rfl, hu, hv⟩
  | cons a rest ih =>
    have ha : NoneFirst [a] := fun b hb => hrest b (List.mem_singleton.mp hb ▸ List.mem_cons_self)
    have hrest' : NoneFirst rest := fun b hb => hrest b (List.mem_cons_of_mem a hb)
    have heq : a.key = c.toNat ↔ a.md5 = c := UInt32.toNat_inj
    have hlt : a.key < c.toNat ↔ a.md5 < c := UInt32.lt_iff_toNat_lt.symm
    rw [List.map_cons, arrange, placeOfFirst]
    simp only [heq, hlt]
    by_cases hac : a.md5 = c
    · rw [if_pos hac, if_pos hac, List.append_assoc, List.cons_append]
      have hnext := ih hu (hv.append ha) hrest'
      have hlen : (u ++ first :: (v ++ [a])).length = (u ++ first :: v).length + 1 := by
        simp only [List.length_append, List.length_cons, List.length_nil]
        omega
      rwa [hlen] at hnext
    · rw [if_neg hac, if_neg hac]
      by_cases hsmaller : a.md5 < c
      · rw [if_pos hsmaller, if_pos hsmaller]
        cases u with
        | nil =>
          have hnone : NoneFirst [] := fun b hb => absurd hb List.not_mem_nil
          have hnext := ih hv hnone hrest'
          rw [List.nil_append, List.rotate_cons_succ, List.rotate_zero, List.length_nil,
            if_pos rfl, List.length_cons, Nat.add_sub_cancel]
          rwa [List.length_append, List.length_singleton] at hnext
        | cons w u =>
          have hw : NoneFirst [w] := fun b hb =>
              hu b (List.mem_singleton.mp hb ▸ List.mem_cons_self)
          have hu' : NoneFirst u := fun b hb => hu b (List.mem_cons_of_mem w hb)
          have hnext := ih hu' (hv.append hw) hrest'
          have hlen : (u ++ first :: (v ++ [w])).length = (w :: u ++ first :: v).length := by
            simp only [List.length_append, List.length_cons, List.length_nil]
            omega
          rw [List.cons_append, List.rotate_cons_succ, List.rotate_zero, List.length_cons,
            if_neg (Nat.succ_ne_zero _), Nat.add_sub_cancel, List.append_assoc, List.cons_append]
          rwa [hlen] at hnext
      · rw [if_neg hsmaller, if_neg hsmaller]
        exact ih hu hv hrest'

/-- The check overlooks that two codes are equal: the smallest code that is given twice is the one
of the first class, and the sort leaves that class in the second place of those with its code. -/
def Overlooked : List UInt32 → Prop
  | [] => False
  | c :: codes =>
    c ∈ codes ∧ (∀ d, d < c → codes.count d ≤ 1) ∧ (placeOfFirst c (0, 1) codes).1 = 1

theorem Overlooked.not_nodup (h : Overlooked codes) : ¬ codes.Nodup := by
  cases codes with
  | nil => exact h.elim
  | cons c codes => exact fun hnodup => (List.nodup_cons.mp hnodup).1 h.1

/-- Of the codes that are given twice, if there are any, one is the smallest. -/
theorem exists_smallest (h : ¬ codes.Nodup) :
    ∃ c, 1 < codes.count c ∧ ∀ d, d < c → codes.count d ≤ 1 := by
  have hexists : ∃ k, ∃ c : UInt32, c.toNat = k ∧ 1 < codes.count c := by
    rw [List.nodup_iff_count_le_one] at h
    push Not at h
    obtain ⟨c, hc⟩ := h
    exact ⟨_, c, rfl, hc⟩
  classical
  obtain ⟨c, hc, htwice⟩ := Nat.find_spec hexists
  refine ⟨c, htwice, fun d hd => ?_⟩
  by_contra hnot
  have hlt : d.toNat < Nat.find hexists := hc ▸ UInt32.lt_iff_toNat_lt.mp hd
  exact Nat.find_min hexists hlt ⟨d, rfl, Nat.lt_of_not_le hnot⟩

/-- The classes of a code, as the sort leaves them. -/
theorem filter_calculateMd5 (codes : List UInt32) (c : UInt32) :
    (calculateMd5 codes).filter (fun a => a.key = c.toNat) =
      arrange MD5Pair.key c.toNat [] (md5Pairs codes) := by
  rw [calculateMd5, compileTimeSort, exchangeLoops_eq, filter_exchangeSort]

/-- The check comes to the second class of the smallest code that is given twice, in the order in
which the sort leaves the classes of that code. -/
theorem exists_hasHashCollision_eq (hc : 1 < codes.count c)
    (hmin : ∀ d, d < c → codes.count d ≤ 1) :
    ∃ a b rest, arrange MD5Pair.key c.toNat [] (md5Pairs codes) = a :: b :: rest ∧
      hasHashCollision codes = b.index := by
  have hlen := length_filter_key codes c
  rw [filter_calculateMd5] at hlen
  match harrange : arrange MD5Pair.key c.toNat [] (md5Pairs codes) with
  | [] | [_] =>
    rw [harrange] at hlen
    simp only [List.length_nil, List.length_cons] at hlen
    omega
  | a :: b :: rest =>
    refine ⟨a, b, rest, rfl, ?_⟩
    apply hasHashCollisionImpl_eq (pairwise_calculateMd5 codes)
      ((filter_calculateMd5 codes c).trans harrange)
    intro k hk
    have hk32 : k < 2 ^ 32 := hk.trans c.toNat_lt
    have hd : (UInt32.ofNat k).toNat = k := UInt32.toNat_ofNat_of_lt' hk32
    have hone := hmin (UInt32.ofNat k) (UInt32.lt_iff_toNat_lt.mpr (hd.symm ▸ hk))
    rwa [← length_filter_key, hd] at hone

/-- The second of the classes of the first code is the first class if that is where the sort leaves
it. -/
theorem index_eq_zero_iff_of_self {codes : List UInt32}
    (harrange : arrange MD5Pair.key c.toNat [] (md5Pairs (c :: codes)) = a :: b :: rest) :
    b.index = 0 ↔ (placeOfFirst c (0, 1) codes).1 = 1 := by
  have hnone : NoneFirst [] := fun x hx => absurd hx List.not_mem_nil
  have htail : NoneFirst ((codes.zipIdx 1).map fun p => ⟨p.1, p.2⟩) := by
    intro x hx
    obtain ⟨⟨d, i⟩, hmem, rfl⟩ := List.mem_map.mp hx
    exact Nat.ne_of_gt (List.le_snd_of_mem_zipIdx hmem)
  have hmd5 : ((codes.zipIdx 1).map fun p => (⟨p.1, p.2⟩ : MD5Pair)).map MD5Pair.md5 = codes := by
    rw [List.map_map]
    exact List.zipIdx_map_fst 1 codes
  obtain ⟨u, v, hplace, hlen, hu, hv⟩ := @exists_arrange_eq _ c [] [] ⟨c, 0⟩ hnone hnone htail
  have hfirst : arrange MD5Pair.key c.toNat [] (md5Pairs (c :: codes)) =
      arrange MD5Pair.key c.toNat [⟨c, 0⟩] ((codes.zipIdx 1).map fun p => ⟨p.1, p.2⟩) :=
    arrange_cons_of_eq rfl [] _
  have hsplit : a :: b :: rest = u ++ ⟨c, 0⟩ :: v := harrange.symm.trans (hfirst.trans hplace)
  rw [hmd5] at hlen
  change u.length = (placeOfFirst c (0, 1) codes).1 at hlen
  rw [← hlen]
  match u, hu with
  | [], _ =>
    have hb : b ∈ v := by
      rw [← (List.cons.inj hsplit).2]
      exact List.mem_cons_self
    exact iff_of_false (hv b hb) Nat.zero_ne_one
  | [x], _ =>
    rw [(List.cons.inj (List.cons.inj hsplit).2).1]
    exact iff_of_true rfl rfl
  | x :: y :: u, hu =>
    rw [(List.cons.inj (List.cons.inj hsplit).2).1]
    refine iff_of_false (hu y (by simp)) ?_
    rw [List.length_cons, List.length_cons]
    omega

/-- Which lists pass the check. -/
theorem hasHashCollision_eq_zero_iff :
    hasHashCollision codes = 0 ↔ codes.Nodup ∨ Overlooked codes := by
  by_cases hnodup : codes.Nodup
  · rw [hasHashCollision, hasHashCollisionImpl_of_pairwise (pairwise_lt_calculateMd5 hnodup)]
    exact iff_of_true rfl (.inl hnodup)
  obtain ⟨c, hc, hmin⟩ := exists_smallest hnodup
  obtain ⟨a, b, rest, harrange, hvalue⟩ := exists_hasHashCollision_eq hc hmin
  rw [hvalue, or_iff_right hnodup]
  cases codes with
  | nil => exact absurd List.nodup_nil hnodup
  | cons d codes =>
    by_cases hdc : d = c
    · obtain rfl := hdc
      rw [index_eq_zero_iff_of_self harrange]
      refine ⟨fun hone => ⟨?_, fun e he => ?_, hone⟩, fun h => h.2.2⟩
      · rw [List.count_cons_self] at hc
        exact List.count_pos_iff.mp (Nat.lt_of_succ_lt_succ hc)
      · exact (List.Sublist.count_le e (List.sublist_cons_self d codes)).trans (hmin e he)
    · -- the classes of another code than the first have other places than the first
      have hb : b ∈ (calculateMd5 (d :: codes)).filter fun a => a.key = c.toNat := by
        rw [filter_calculateMd5, harrange]
        simp
      obtain ⟨hmem, hkey⟩ := List.mem_filter.mp hb
      have hget := mem_calculateMd5.mp hmem
      have hmd5 : b.md5 = c := UInt32.toNat_inj.mp (of_decide_eq_true hkey)
      refine iff_of_false (fun hzero => ?_) ?_
      · rw [hzero, hmd5] at hget
        exact hdc (Option.some.inj hget)
      · rintro ⟨hmem, hsmall, -⟩
        have hcount : codes.count c = (d :: codes).count c := (List.count_cons_of_ne hdc).symm
        obtain hlt | heq | hlt := lt_trichotomy c.toNat d.toNat
        · have := hsmall c (UInt32.lt_iff_toNat_lt.mpr hlt)
          omega
        · exact hdc (UInt32.toNat_inj.mp heq).symm
        · have hone := hmin d (UInt32.lt_iff_toNat_lt.mpr hlt)
          rw [List.count_cons_self] at hone
          have := List.count_pos_iff.mpr hmem
          omega

end Check

/-! ### Dispatch -/

/-- Check and search are right: equal codes are rejected, and no others; without equal codes a class
is found by its code, and no class by another one. -/
def Dispatches (codes : List UInt32) : Prop :=
  (hasHashCollision codes = 0 ↔ codes.Nodup) ∧
    (codes.Nodup →
      (∀ (i : ℕ) (id : UInt32), codes[i]? = some id → searchTypeByMd5 codes id = (i, true)) ∧
        ∀ id, id ∉ codes → (searchTypeByMd5 codes id).2 = false)

/-- Check and search are right if and only if the list is not overlooked. -/
theorem dispatches_iff (codes : List UInt32) : Dispatches codes ↔ ¬ Overlooked codes := by
  constructor
  · intro h hover
    exact hover.not_nodup (h.1.mp (hasHashCollision_eq_zero_iff.mpr (.inr hover)))
  · intro hover
    refine ⟨?_, fun hnodup => ⟨fun i id hi => searchTypeByMd5_of_getElem? hnodup hi,
      fun id hid => searchTypeByMd5_of_notMem hid⟩⟩
    rw [hasHashCollision_eq_zero_iff, or_iff_left hover]

/-- The first two classes with one code, and a third one with a smaller code: the list passes the
check, and an object of the first class is rebuilt as one of the second. -/
theorem not_dispatches_two_two_one :
    ¬ Dispatches [2, 2, 1] ∧ hasHashCollision [2, 2, 1] = 0 ∧
      searchTypeByMd5 [2, 2, 1] 2 = (1, true) := by
  have hcheck : hasHashCollision [2, 2, 1] = 0 := by decide
  refine ⟨fun h => ?_, hcheck, by decide⟩
  have hnodup := h.1.mp hcheck
  revert hnodup
  decide

end Yalantinglibs.StructPack
