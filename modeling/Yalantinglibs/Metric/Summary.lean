import Mathlib.Algebra.BigOperators.Group.List.Basic
import Mathlib.Algebra.Order.Floor.Semiring
import Mathlib.Data.List.Induction
import Mathlib.Data.Rat.Floor
import Yalantinglibs.Metric.SummaryCode

/-!
# Summaries

`metric/summary_impl.hpp` counts observations by their code, in one of two slots of which one is
cleared when observations expire. `stat` walks the counters of both slots in the order of the codes,
to find the observation that has the rank of each quantile, and sums up what it passes. Numbers are
exact here.

## Main definitions

* `State.insert` — an observation is counted
* `Data.stat`, `DataCopy` — the counters of a slot in order, and those of both slots
* `State.stat` — the quantiles, the sum and the count

## Main results

* `quantiles_eq` — each quantile is read at its rank
* `stat_eq` — what `stat` returns for counted observations
-/

set_option autoImplicit false

namespace Yalantinglibs.Metric.Summary

/-! ### Counters -/

/-- The type of the counters. -/
inductive UintType
  | uint32
  | uint64
  deriving DecidableEq

def pieceCnt : ℕ := 1 <<< 7

def pieceSize : ℕ := bucketSize / pieceCnt

/-- `data_t`: pieces of counters, which are made when the first one is counted. -/
abbrev Data := ℕ → Option (ℕ → ℕ)

def Data.empty : Data := fun _ => none

def Data.count (d : Data) (index : ℕ) : ℕ :=
  match d (index / pieceSize) with
  | none => 0
  | some piece => piece (index % pieceSize)

def Data.fetchAdd (d : Data) (index : ℕ) : Data :=
  Function.update d (index / pieceSize)
    (some (Function.update ((d (index / pieceSize)).getD fun _ => 0) (index % pieceSize)
      (d.count index + 1)))

/-- The counters become 0. -/
def Data.refresh (d : Data) : Data := fun i => (d i).map fun _ _ => 0

def nearUint32Max : ℕ := 4290000000

/-- The loop of `increase` over the counters beside a full one. -/
def Data.spill (d : Data) (pos upper lower : ℕ) : List ℕ → Data
  | [] => d
  | delta :: rest =>
    if pos + delta < upper ∧ d.count (pos + delta) ≤ nearUint32Max then d.fetchAdd (pos + delta)
    else if lower + delta ≤ pos ∧ d.count (pos - delta) ≤ nearUint32Max then
      d.fetchAdd (pos - delta)
    else d.spill pos upper lower rest

def Data.increase (ut : UintType) (d : Data) (pos : ℕ) : Data :=
  if ut = .uint32 ∧ nearUint32Max < d.count pos then
    let upper := if pos < bucketSize / 2 then bucketSize / 2 else bucketSize
    let lower := if pos < bucketSize / 2 then 0 else bucketSize / 2
    d.spill pos upper lower (List.range' 1 (max (upper - pos) (pos - lower + 1) - 1))
  else d.fetchAdd pos

/-- The two slots, the one that is counted in, and the time of the last clearing. -/
structure State where
  data : Bool → Option Data := fun _ => none
  frontendDataIndex : Bool := false
  tp : ℕ := 0

/-- The ticks of the clock in a millisecond. -/
def msCount : ℕ := 1000000

/-- `refresh`, for a refresh time of half the age that observations may have, in milliseconds. -/
def State.refresh (refreshTime now : ℕ) (s : State) : State :=
  if refreshTime = 0 then s
  else
    let ms := (now - s.tp) / msCount
    if refreshTime ≤ ms then
      if 2 * refreshTime ≤ ms then
        { s with tp := now, data := fun i => (s.data i).map Data.refresh }
      else
        let pos := !s.frontendDataIndex
        { data := Function.update s.data pos ((s.data pos).map Data.refresh)
          frontendDataIndex := pos
          tp := now }
    else s

def State.insert (ut : UintType) (refreshTime now : ℕ) (s : State) (flt : Flt) : State :=
  let s := s.refresh refreshTime now
  let d := (s.data s.frontendDataIndex).getD Data.empty
  { s with data := Function.update s.data s.frontendDataIndex (some (d.increase ut (encode flt))) }

/-! ### The walk through the counters -/

/-- What `stat` walks through: an ordered index and a count. -/
abbrev Entry := ℤ × ℕ

/-- `stat_impl`: the counters of a piece that are not 0, in one of the two directions. -/
def Data.statImpl (d : Data) (incOrder : Bool) (i : ℕ) : List Entry :=
  match d i with
  | none => []
  | some piece =>
    (if incOrder then List.range pieceSize else (List.range pieceSize).reverse).filterMap fun j =>
      if piece j ≠ 0 then
        some (int16 (getOrderedIndex (int16 ((i * pieceSize + j : ℕ) : ℤ))), piece j)
      else none

/-- `stat` of a slot: pieces of codes with sign come first, from the last one on. -/
def Data.stat (d : Data) : List Entry :=
  (List.range' (pieceCnt / 2) (pieceCnt / 2)).reverse.flatMap (d.statImpl false) ++
    (List.range (pieceCnt / 2)).flatMap (d.statImpl true)

/-- What is put behind the entries of a slot. -/
def sentinel : Entry := ((bucketSize / 2 : ℕ), 0)

/-- `operator<=` of pairs. -/
def Entry.le (a b : Entry) : Bool := !(b.1 < a.1 ∨ ¬a.1 < b.1 ∧ b.2 < a.2)

/-- `data_copy_t`: where the walk is in each slot, and what comes behind that. -/
structure DataCopy where
  entry0 : Entry
  rest0 : List Entry
  entry1 : Entry
  rest1 : List Entry

namespace DataCopy

/-- The first entry of a slot, and those behind it with the sentinel. -/
def start : List Entry → Entry × List Entry
  | [] => (sentinel, [])
  | e :: es => (e, es ++ [sentinel])

def init (arr0 arr1 : List Entry) : DataCopy :=
  ⟨(start arr0).1, (start arr0).2, (start arr1).1, (start arr1).2⟩

variable (c : DataCopy)

/-- The entry at `smaller_one`. -/
def entry : Entry := if c.entry0.le c.entry1 then c.entry0 else c.entry1

/-- The index at `smaller_one` is increased; it is not to leave the array. -/
def inc : Option DataCopy :=
  if c.entry0.le c.entry1 then
    match c.rest0 with
    | [] => none
    | e :: es => some { c with entry0 := e, rest0 := es }
  else
    match c.rest1 with
    | [] => none
    | e :: es => some { c with entry1 := e, rest1 := es }

/-- The number of steps that are left. -/
def size : ℕ := c.rest0.length + c.rest1.length

end DataCopy

/-- The float that an entry counts. -/
def Entry.flt (e : Entry) : Flt := decode (getRawIndex e.1).toNat

/-! ### Quantiles -/

/-- The variables of the loop over the quantiles. -/
structure Walk where
  countNow : ℕ
  v : Flt
  sum : ℚ
  copy : DataCopy

/-- The inner loop, up to the entry in which the target is reached. -/
def Walk.advance (target : ℚ) : ℕ → Walk → Option Walk
  | 0, _ => none
  | fuel + 1, w =>
    if target ≤ w.countNow then some w
    else
      let e := w.copy.entry
      w.copy.inc.bind fun copy =>
        Walk.advance target fuel ⟨w.countNow + e.2, e.flt, w.sum + value e.flt * e.2, copy⟩

/-- One quantile, which may be no number. -/
def Walk.quantile (count : ℕ) (w : Walk) : Option ℚ → Option Walk
  | none => some w
  | some e =>
    if e < 0 then some w
    else
      let e := if 1 < e then 1 else e
      let targetCount := if e = 0 then min 1 (count : ℚ) else min (e * count) count
      w.advance targetCount (w.copy.size + 1)

def Walk.quantiles (count : ℕ) : Walk → List (Option ℚ) → Option (List Flt × Walk)
  | w, [] => some ([], w)
  | w, e :: rate =>
    (w.quantile count e).bind fun w =>
      (Walk.quantiles count w rate).map fun (result, w') => (w.v :: result, w')

/-- The loop behind the quantiles. The index is compared as a `size_t`. -/
def sumRest : ℕ → DataCopy → ℚ → Option ℚ
  | 0, _, _ => none
  | fuel + 1, c, sum =>
    if sizeT c.entry.1 < (bucketSize / 2 : ℕ) then
      c.inc.bind fun c' => sumRest fuel c' (sum + value c.entry.flt * c.entry.2)
    else some sum

/-- `stat`: the sum, the count and the quantiles. -/
def State.stat (refreshTime now : ℕ) (s : State) (rate : List (Option ℚ)) :
    Option (ℚ × ℕ × List Flt) :=
  let s := s.refresh refreshTime now
  let arr0 := (s.data false).elim [] Data.stat
  let arr1 := (s.data true).elim [] Data.stat
  let count := (arr0.map Prod.snd).sum + (arr1.map Prod.snd).sum
  if count = 0 then some (0, 0, rate.map fun _ => 0)
  else
    (Walk.quantiles count ⟨0, negFloat16Max, 0, DataCopy.init arr0 arr1⟩ rate).bind
      fun (result, w) =>
        (sumRest (w.copy.size + 1) w.copy w.sum).map fun sum => (sum, count, result)

/-! ### Runs -/

/-- An observation, the time when it is made and the slot that is counted in. -/
structure Observation where
  now : ℕ
  slot : Bool
  flt : Flt

/-- Observations are inserted without expiry, each into its slot. -/
def fill (ut : UintType) (obs : List Observation) : State :=
  obs.foldl (fun s o => { s with frontendDataIndex := o.slot }.insert ut 0 o.now o.flt) {}

/-! ### What the counters count -/

section Counters

variable {ut : UintType} {d : Data} {s : State}

theorem pieceSize_eq : pieceSize = 128 := rfl

/-- One counter is increased. -/
theorem Data.count_fetchAdd (d : Data) (index code : ℕ) :
    (d.fetchAdd index).count code = d.count code + if index = code then 1 else 0 := by
  unfold Data.fetchAdd
  rw [Data.count]
  by_cases hpiece : code / pieceSize = index / pieceSize
  · rw [hpiece, Function.update_self]
    dsimp only
    by_cases hcell : code % pieceSize = index % pieceSize
    · have heq : index = code := by
        rw [← Nat.div_add_mod index pieceSize, ← Nat.div_add_mod code pieceSize, hpiece, hcell]
      rw [hcell, Function.update_self, if_pos heq, heq]
    · have hne : index ≠ code := fun h => hcell (by rw [h])
      rw [Function.update_of_ne hcell, if_neg hne, Nat.add_zero, Data.count, hpiece]
      cases d (index / pieceSize) with
      | none => rfl
      | some piece => rfl
  · have hne : index ≠ code := fun h => hpiece (by rw [h])
    rw [Function.update_of_ne hpiece, if_neg hne, Nat.add_zero, Data.count]

/-- A counter that is not full is increased. -/
theorem Data.count_increase {pos : ℕ} (hfull : ut = .uint32 → d.count pos ≤ nearUint32Max)
    (code : ℕ) : (d.increase ut pos).count code = d.count code + if pos = code then 1 else 0 := by
  have hnot : ¬(ut = .uint32 ∧ nearUint32Max < d.count pos) := fun ⟨hut, hlt⟩ =>
    absurd (hfull hut) (Nat.not_le.mpr hlt)
  rw [Data.increase, if_neg hnot, Data.count_fetchAdd]

/-- What is counted for a code in a slot. -/
def State.count (s : State) (slot : Bool) (code : ℕ) : ℕ :=
  ((s.data slot).getD Data.empty).count code

theorem State.count_insert {now : ℕ} {flt : Flt}
    (hfull : ut = .uint32 → s.count s.frontendDataIndex (encode flt) ≤ nearUint32Max)
    (slot : Bool) (code : ℕ) : (s.insert ut 0 now flt).count slot code = s.count slot code +
      if s.frontendDataIndex = slot ∧ encode flt = code then 1 else 0 := by
  have hrefresh : s.refresh 0 now = s := if_pos rfl
  unfold State.insert State.count
  rw [hrefresh]
  dsimp only
  by_cases hslot : slot = s.frontendDataIndex
  · subst hslot
    rw [Function.update_self, Option.getD_some, Data.count_increase hfull]
    simp only [true_and]
  · have hne : ¬(s.frontendDataIndex = slot ∧ encode flt = code) := fun h => hslot h.1.symm
    rw [Function.update_of_ne hslot, if_neg hne, Nat.add_zero]

/-- The observations of a code in a slot. -/
def Observation.isIn (slot : Bool) (code : ℕ) (o : Observation) : Bool :=
  o.slot = slot ∧ encode o.flt = code

/-- The counters have room for the observations, where they have 32 bits. -/
def Fits (ut : UintType) (obs : List Observation) : Prop :=
  ut = .uint32 → ∀ slot code, obs.countP (Observation.isIn slot code) ≤ nearUint32Max + 1

theorem Fits.init {obs : List Observation} {o : Observation} (h : Fits ut (obs ++ [o])) :
    Fits ut obs := by
  intro hut slot code
  refine le_trans ?_ (h hut slot code)
  rw [List.countP_append]
  exact Nat.le_add_right _ _

/-- Each counter is the number of observations of its code. -/
theorem count_fill {obs : List Observation} (hfits : Fits ut obs) (slot : Bool) (code : ℕ) :
    (fill ut obs).count slot code = obs.countP (Observation.isIn slot code) := by
  induction obs using List.reverseRecOn generalizing slot code with
  | nil => rfl
  | append_singleton obs o ih =>
    have hrec := ih hfits.init
    have hfold : fill ut (obs ++ [o]) =
        { fill ut obs with frontendDataIndex := o.slot }.insert ut 0 o.now o.flt := by
      rw [fill, List.foldl_append]
      rfl
    have hcount : ∀ slot code,
        { fill ut obs with frontendDataIndex := o.slot }.count slot code =
          obs.countP (Observation.isIn slot code) := hrec
    have hroom : ut = .uint32 →
        { fill ut obs with frontendDataIndex := o.slot }.count o.slot (encode o.flt) ≤
          nearUint32Max := by
      intro hut
      have h := hfits hut o.slot (encode o.flt)
      rw [List.countP_append] at h
      have hone : [o].countP (Observation.isIn o.slot (encode o.flt)) = 1 := by
        rw [List.countP_singleton, Observation.isIn]
        simp
      rw [hcount]
      omega
    rw [hfold, State.count_insert hroom, hcount, List.countP_append, List.countP_singleton]
    simp only [Observation.isIn, decide_eq_true_eq]

end Counters

/-! ### The walk is in the order of the codes -/

section Order

variable {d : Data}

theorem order_eq {code : ℕ} (h : code < bucketSize) :
    order code = if code < 8192 then (code : ℤ) else 8191 - code := by
  obtain ⟨s, r, hr, rfl⟩ := exists_code_fields h
  rw [order_fields s hr]
  cases s with
  | false =>
    rw [Bool.toNat_false, Nat.zero_mul, Nat.zero_add, if_neg Bool.false_ne_true, if_pos hr]
  | true =>
    rw [Bool.toNat_true, Nat.one_mul, if_pos rfl, if_neg (by omega)]
    push_cast
    ring

/-- The codes of a piece, in one of the two directions. -/
def cells (incOrder : Bool) (i : ℕ) : List ℕ :=
  (if incOrder then List.range pieceSize else (List.range pieceSize).reverse).map
    fun j => i * pieceSize + j

/-- All codes, as `stat` walks through them. -/
def walkOrder : List ℕ :=
  (List.range' (pieceCnt / 2) (pieceCnt / 2)).reverse.flatMap (cells false) ++
    (List.range (pieceCnt / 2)).flatMap (cells true)

/-- The entry of a code. -/
def Data.entryOf (d : Data) (code : ℕ) : Option Entry :=
  if d.count code ≠ 0 then some (order code, d.count code) else none

theorem mem_cells {incOrder : Bool} {i code : ℕ} :
    code ∈ cells incOrder i ↔ i * pieceSize ≤ code ∧ code < (i + 1) * pieceSize := by
  have hmem : code ∈ cells incOrder i ↔ ∃ j < pieceSize, i * pieceSize + j = code := by
    unfold cells
    cases incOrder <;> simp
  rw [hmem, pieceSize_eq]
  constructor
  · rintro ⟨j, hj, rfl⟩
    omega
  · intro h
    exact ⟨code - i * 128, by omega, by omega⟩

theorem Data.statImpl_eq (d : Data) (incOrder : Bool) (i : ℕ) :
    d.statImpl incOrder i = (cells incOrder i).filterMap d.entryOf := by
  have hcount : ∀ j < pieceSize,
      d.count (i * pieceSize + j) = (d i).elim 0 fun piece => piece j := by
    intro j hj
    have hpos : 0 < pieceSize := Nat.lt_of_le_of_lt (Nat.zero_le j) hj
    have hdiv : (i * pieceSize + j) / pieceSize = i := by
      rw [Nat.mul_comm, Nat.mul_add_div hpos, Nat.div_eq_of_lt hj, Nat.add_zero]
    have hmod : (i * pieceSize + j) % pieceSize = j := by
      rw [Nat.mul_comm, Nat.mul_add_mod, Nat.mod_eq_of_lt hj]
    rw [Data.count, hdiv, hmod]
    cases d i with
    | none => rfl
    | some piece => rfl
  have hmem : ∀ j, j ∈ (if incOrder then List.range pieceSize else (List.range pieceSize).reverse) →
      j < pieceSize := by
    intro j hj
    cases incOrder <;> simpa using hj
  unfold Data.statImpl cells
  rw [List.filterMap_map]
  cases hpiece : d i with
  | none =>
    symm
    rw [List.filterMap_eq_nil_iff]
    intro j hj
    have hzero := hcount j (hmem j hj)
    rw [hpiece] at hzero
    rw [Function.comp_apply, Data.entryOf, hzero]
    rfl
  | some piece =>
    refine List.filterMap_congr fun j hj => ?_
    have hcell := hcount j (hmem j hj)
    rw [hpiece] at hcell
    rw [Function.comp_apply, Data.entryOf, hcell]
    rfl

theorem Data.stat_eq (d : Data) : d.stat = walkOrder.filterMap d.entryOf := by
  have hpiece : ∀ incOrder,
      d.statImpl incOrder = fun i => (cells incOrder i).filterMap d.entryOf := by
    intro incOrder
    funext i
    exact d.statImpl_eq incOrder i
  rw [Data.stat, walkOrder, List.filterMap_append, List.filterMap_flatMap, List.filterMap_flatMap,
    hpiece, hpiece]

theorem mem_walkOrder {code : ℕ} : code ∈ walkOrder ↔ code < bucketSize := by
  have hsize : bucketSize = 16384 := rfl
  have hcnt : pieceCnt / 2 = 64 := rfl
  simp only [walkOrder, List.mem_append, List.mem_flatMap, List.mem_reverse, List.mem_range'_1,
    List.mem_range, mem_cells, pieceSize_eq, hsize, hcnt]
  constructor
  · rintro (⟨i, hi, hc⟩ | ⟨i, hi, hc⟩)
    · omega
    · omega
  · intro h
    by_cases hsign : 8192 ≤ code
    · exact .inl ⟨code / 128, by omega, by omega⟩
    · exact .inr ⟨code / 128, by omega, by omega⟩

theorem pairwise_cells_false (i : ℕ) : (cells false i).Pairwise (· > ·) := by
  unfold cells
  rw [if_neg Bool.false_ne_true, List.pairwise_map, List.pairwise_reverse]
  exact List.pairwise_lt_range.imp fun h => Nat.add_lt_add_left h _

theorem pairwise_cells_true (i : ℕ) : (cells true i).Pairwise (· < ·) := by
  unfold cells
  rw [if_pos rfl, List.pairwise_map]
  exact List.pairwise_lt_range.imp fun h => Nat.add_lt_add_left h _

/-- Codes with sign are walked through downwards, and then the others upwards. -/
theorem pairwise_walkOrder : walkOrder.Pairwise fun a b => order a < order b := by
  have hsize : bucketSize = 16384 := rfl
  have hcnt : pieceCnt / 2 = 64 := rfl
  have hsigned : ((List.range' (pieceCnt / 2) (pieceCnt / 2)).reverse.flatMap
      (cells false)).Pairwise (· > ·) := by
    rw [List.pairwise_flatMap]
    refine ⟨fun i _ => pairwise_cells_false i, ?_⟩
    rw [List.pairwise_reverse]
    refine (List.pairwise_lt_range' 1).imp ?_
    intro i j hij x hx y hy
    rw [mem_cells, pieceSize_eq] at hx hy
    omega
  have hunsigned : ((List.range (pieceCnt / 2)).flatMap (cells true)).Pairwise (· < ·) := by
    rw [List.pairwise_flatMap]
    refine ⟨fun i _ => pairwise_cells_true i, ?_⟩
    refine List.pairwise_lt_range.imp ?_
    intro i j hij x hx y hy
    rw [mem_cells, pieceSize_eq] at hx hy
    omega
  have hmem : ∀ {a : ℕ}, a ∈ (List.range' (pieceCnt / 2) (pieceCnt / 2)).reverse.flatMap
      (cells false) → 8192 ≤ a ∧ a < bucketSize := by
    intro a ha
    simp only [List.mem_flatMap, List.mem_reverse, List.mem_range'_1, mem_cells, pieceSize_eq,
      hcnt] at ha
    obtain ⟨i, hi, hc⟩ := ha
    rw [hsize]
    omega
  have hmem' : ∀ {a : ℕ}, a ∈ (List.range (pieceCnt / 2)).flatMap (cells true) → a < 8192 := by
    intro a ha
    simp only [List.mem_flatMap, List.mem_range, mem_cells, pieceSize_eq, hcnt] at ha
    obtain ⟨i, hi, hc⟩ := ha
    omega
  have hlt : ∀ {a : ℕ}, a < 8192 → a < bucketSize := fun h => h.trans (by decide)
  rw [walkOrder, List.pairwise_append]
  refine ⟨?_, ?_, ?_⟩
  · refine List.Pairwise.imp_of_mem ?_ hsigned
    intro a b ha hb hab
    rw [order_eq (hmem ha).2, order_eq (hmem hb).2, if_neg (Nat.not_lt.mpr (hmem ha).1),
      if_neg (Nat.not_lt.mpr (hmem hb).1)]
    have : b < a := hab
    omega
  · refine List.Pairwise.imp_of_mem ?_ hunsigned
    intro a b ha hb hab
    rw [order_eq (hlt (hmem' ha)), order_eq (hlt (hmem' hb)), if_pos (hmem' ha), if_pos (hmem' hb)]
    exact Int.ofNat_lt.mpr hab
  · intro a ha b hb
    rw [order_eq (hmem ha).2, order_eq (hlt (hmem' hb)), if_neg (Nat.not_lt.mpr (hmem ha).1),
      if_pos (hmem' hb)]
    have := (hmem ha).1
    omega

theorem nodup_walkOrder : walkOrder.Nodup := by
  refine pairwise_walkOrder.imp ?_
  rintro a b hlt rfl
  exact lt_irrefl _ hlt

end Order

/-! ### Both slots together -/

section Merges

variable {c : DataCopy} {e : Entry} {rest : List Entry}

theorem Entry.le_total (a b : Entry) : (a.le b || b.le a) = true := by
  unfold Entry.le
  rw [Bool.or_eq_true]
  simp only [Bool.not_eq_true', decide_eq_false_iff_not]
  omega

theorem Entry.le_trans (a b c : Entry) (hab : a.le b = true) (hbc : b.le c = true) :
    a.le c = true := by
  unfold Entry.le at *
  simp only [Bool.not_eq_true', decide_eq_false_iff_not] at *
  omega

theorem Entry.fst_le_of_le {a b : Entry} (h : a.le b = true) : a.1 ≤ b.1 := by
  unfold Entry.le at h
  simp only [Bool.not_eq_true', decide_eq_false_iff_not] at h
  omega

theorem sentinel_fst : sentinel.1 = 8192 := rfl

theorem sentinel_le_of_lt (h : e.1 < 8192) : sentinel.le e = false := by
  have hs := sentinel_fst
  unfold Entry.le
  simp only [Bool.not_eq_false', decide_eq_true_eq]
  omega

theorem le_sentinel_of_lt (h : e.1 < 8192) : e.le sentinel = true := by
  have hs := sentinel_fst
  unfold Entry.le
  simp only [Bool.not_eq_true', decide_eq_false_iff_not]
  omega

/-- The entries that are left in both slots, in the order in which they are walked through. -/
def DataCopy.Merges (c : DataCopy) (left : List Entry) : Prop :=
  ∃ xs ys, c.entry0 :: c.rest0 = xs ++ [sentinel] ∧ c.entry1 :: c.rest1 = ys ++ [sentinel] ∧
    (∀ e ∈ xs ++ ys, e.1 < 8192) ∧ left = xs.merge ys Entry.le

theorem start_eq (l : List Entry) :
    (DataCopy.start l).1 :: (DataCopy.start l).2 = l ++ [sentinel] := by
  cases l with
  | nil => rfl
  | cons e es => rfl

theorem merges_init {xs ys : List Entry} (h : ∀ e ∈ xs ++ ys, e.1 < 8192) :
    (DataCopy.init xs ys).Merges (xs.merge ys Entry.le) :=
  ⟨xs, ys, start_eq xs, start_eq ys, h, rfl⟩

theorem DataCopy.Merges.size_eq (h : c.Merges rest) : c.size = rest.length := by
  obtain ⟨xs, ys, hx, hy, -, rfl⟩ := h
  have hx' := congrArg List.length hx
  have hy' := congrArg List.length hy
  rw [List.length_merge, DataCopy.size]
  simp only [List.length_cons, List.length_append, List.length_nil] at hx' hy'
  omega

/-- The sentinel is behind all entries. -/
theorem DataCopy.Merges.entry_of_nil (h : c.Merges []) : c.entry = sentinel := by
  have hsize := h.size_eq
  obtain ⟨xs, ys, hx, hy, -, hnil⟩ := h
  have hlength := congrArg List.length hnil
  rw [List.length_merge, List.length_nil] at hlength
  have hxs : xs = [] := List.length_eq_zero_iff.mp (by omega)
  have hys : ys = [] := List.length_eq_zero_iff.mp (by omega)
  rw [hxs, List.nil_append] at hx
  rw [hys, List.nil_append] at hy
  have h0 := (List.cons.inj hx).1
  have h1 := (List.cons.inj hy).1
  unfold DataCopy.entry
  rw [h0, h1, ite_self]

/-- The first of the entries that are left is taken, from one of the slots, and the sentinel is not
passed. -/
theorem DataCopy.Merges.inc (h : c.Merges (e :: rest)) :
    c.entry = e ∧ ∃ c', c.inc = some c' ∧ c'.Merges rest := by
  obtain ⟨entry0, rest0, entry1, rest1⟩ := c
  obtain ⟨xs, ys, hx, hy, hlt, hleft⟩ := h
  dsimp only at hx hy
  -- the slot that the entry is taken from, as the rest of it with the sentinel is not empty
  have hsnoc : ∀ zs : List Entry, ∃ z zs', zs ++ [sentinel] = z :: zs' := by
    intro zs
    cases zs with
    | nil => exact ⟨_, _, rfl⟩
    | cons z zs => exact ⟨_, _, rfl⟩
  have take0 : ∀ x xs', xs = x :: xs' → entry0.le entry1 = true →
      xs.merge ys Entry.le = x :: xs'.merge ys Entry.le →
      DataCopy.entry ⟨entry0, rest0, entry1, rest1⟩ = e ∧
        ∃ c', DataCopy.inc ⟨entry0, rest0, entry1, rest1⟩ = some c' ∧ c'.Merges rest := by
    rintro x xs' rfl hle hmerge
    rw [hmerge] at hleft
    obtain ⟨rfl, rfl⟩ := List.cons.inj hleft
    obtain ⟨rfl, hrest⟩ := List.cons.inj hx
    obtain ⟨z, zs, hz⟩ := hsnoc xs'
    refine ⟨if_pos hle, ⟨z, zs, entry1, rest1⟩, ?_, xs', ys, hz.symm, hy, ?_, rfl⟩
    · have hrest' : rest0 = z :: zs := hrest.trans hz
      unfold DataCopy.inc
      rw [if_pos hle, hrest']
    · exact fun d hd => hlt d (List.mem_cons_of_mem _ hd)
  have take1 : ∀ y ys', ys = y :: ys' → entry0.le entry1 = false →
      xs.merge ys Entry.le = y :: xs.merge ys' Entry.le →
      DataCopy.entry ⟨entry0, rest0, entry1, rest1⟩ = e ∧
        ∃ c', DataCopy.inc ⟨entry0, rest0, entry1, rest1⟩ = some c' ∧ c'.Merges rest := by
    rintro y ys' rfl hle hmerge
    rw [hmerge] at hleft
    obtain ⟨rfl, rfl⟩ := List.cons.inj hleft
    obtain ⟨rfl, hrest⟩ := List.cons.inj hy
    obtain ⟨z, zs, hz⟩ := hsnoc ys'
    have hnot : ¬entry0.le entry1 = true := by
      rw [hle]
      exact Bool.false_ne_true
    refine ⟨if_neg hnot, ⟨entry0, rest0, z, zs⟩, ?_, xs, ys', hx, hz.symm, ?_, rfl⟩
    · have hrest' : rest1 = z :: zs := hrest.trans hz
      unfold DataCopy.inc
      rw [if_neg hnot, hrest']
    · intro d hd
      refine hlt d ?_
      rw [List.mem_append] at hd ⊢
      exact hd.imp_right (List.mem_cons_of_mem _)
  cases hxs : xs with
  | nil =>
    cases hys : ys with
    | nil =>
      rw [hxs, hys, List.nil_merge] at hleft
      cases hleft
    | cons y ys' =>
      have hs : entry0 = sentinel := by
        rw [hxs] at hx
        exact (List.cons.inj hx).1
      have hy' : entry1 = y := by
        rw [hys] at hy
        exact (List.cons.inj hy).1
      refine take1 y ys' hys ?_ (by rw [hxs, hys, List.nil_merge, List.nil_merge])
      rw [hs, hy']
      exact sentinel_le_of_lt (hlt y (by rw [hys]; simp))
  | cons x xs' =>
    have hx' : entry0 = x := by
      rw [hxs] at hx
      exact (List.cons.inj hx).1
    cases hys : ys with
    | nil =>
      have hs : entry1 = sentinel := by
        rw [hys] at hy
        exact (List.cons.inj hy).1
      refine take0 x xs' hxs ?_ (by rw [hxs, hys, List.merge_right, List.merge_right])
      rw [hs, hx']
      exact le_sentinel_of_lt (hlt x (by rw [hxs]; simp))
    | cons y ys' =>
      have hy' : entry1 = y := by
        rw [hys] at hy
        exact (List.cons.inj hy).1
      cases hle : x.le y with
      | true =>
        refine take0 x xs' hxs (by rw [hx', hy', hle]) ?_
        rw [hxs, hys, List.cons_merge_cons, if_pos hle]
      | false =>
        refine take1 y ys' hys (by rw [hx', hy', hle]) ?_
        rw [hxs, hys, List.cons_merge_cons, hle, if_neg Bool.false_ne_true]

end Merges

/-! ### The walk -/

section Walk

variable {w : Walk} {passed left es : List Entry} {e : Entry}

/-- What entries count. -/
def total (es : List Entry) : ℕ := (es.map Prod.snd).sum

/-- What is added to the sum for entries. -/
def weighted (es : List Entry) : ℚ := (es.map fun e => value e.flt * e.2).sum

/-- The observations that entries count, as floats of their codes. -/
def flts (es : List Entry) : List Flt := es.flatMap fun e => List.replicate e.2 e.flt

theorem total_append (es es' : List Entry) : total (es ++ es') = total es + total es' := by
  rw [total, List.map_append, List.sum_append]
  rfl

theorem total_cons (e : Entry) (es : List Entry) : total (e :: es) = e.2 + total es := rfl

theorem total_concat (es : List Entry) (e : Entry) : total (es ++ [e]) = total es + e.2 := by
  rw [total_append, total_cons]
  rfl

theorem weighted_append (es es' : List Entry) :
    weighted (es ++ es') = weighted es + weighted es' := by
  rw [weighted, List.map_append, List.sum_append]
  rfl

theorem weighted_cons (e : Entry) (es : List Entry) :
    weighted (e :: es) = value e.flt * e.2 + weighted es := rfl

theorem weighted_concat (es : List Entry) (e : Entry) :
    weighted (es ++ [e]) = weighted es + value e.flt * e.2 := by
  rw [weighted_append, weighted_cons]
  exact congrArg _ (add_zero _)

theorem length_flts (es : List Entry) : (flts es).length = total es := by
  rw [flts, List.length_flatMap]
  simp only [List.length_replicate]
  rfl

/-- The rank of an observation falls into the entry that counts it. -/
theorem flts_getElem? {rest : List Entry} {k : ℕ} (hlow : total es < k)
    (hhigh : k ≤ total (es ++ [e])) : (flts (es ++ e :: rest))[k - 1]? = some e.flt := by
  rw [total_concat] at hhigh
  have hsplit : flts (es ++ e :: rest) = flts es ++ (List.replicate e.2 e.flt ++ flts rest) := by
    rw [flts, List.flatMap_append, List.flatMap_cons]
    rfl
  have hpast : (flts es).length ≤ k - 1 := by
    rw [length_flts]
    omega
  have hwithin : k - 1 - (flts es).length < (List.replicate e.2 e.flt).length := by
    rw [length_flts, List.length_replicate]
    omega
  rw [hsplit, List.getElem?_append_right hpast, List.getElem?_append_left hwithin,
    List.getElem?_replicate, if_pos]
  rwa [List.length_replicate] at hwithin

/-- Where the walk is: what it has passed, and what is left. -/
structure Walk.At (w : Walk) (passed left : List Entry) : Prop where
  merges : w.copy.Merges left
  countNow : w.countNow = total passed
  sum : w.sum = weighted passed
  v : ∀ es e, passed = es ++ [e] → w.v = e.flt

/-- No entry was passed behind the one in which the rank was reached. -/
def Minimal (k : ℕ) (passed : List Entry) : Prop := ∀ es e, passed = es ++ [e] → total es < k

/-- The inner loop stops behind the entry in which the rank is reached. -/
theorem Walk.At.advance {target : ℚ} {k fuel : ℕ} (hw : w.At passed left)
    (htarget : ∀ n : ℕ, target ≤ n ↔ k ≤ n) (hminimal : Minimal k passed)
    (hk : k ≤ total (passed ++ left)) (hfuel : left.length < fuel) :
    ∃ w' passed' left', w.advance target fuel = some w' ∧ w'.At passed' left' ∧
      passed' ++ left' = passed ++ left ∧ Minimal k passed' ∧ k ≤ total passed' := by
  induction fuel generalizing w passed left with
  | zero => exact absurd hfuel (Nat.not_lt_zero _)
  | succ fuel ih =>
    unfold Walk.advance
    by_cases hreached : target ≤ w.countNow
    · rw [if_pos hreached]
      refine ⟨w, passed, left, rfl, hw, rfl, hminimal, ?_⟩
      rw [← hw.countNow]
      exact (htarget _).mp hreached
    · rw [if_neg hreached]
      have hshort : total passed < k := by
        rw [htarget, hw.countNow, Nat.not_le] at hreached
        exact hreached
      cases left with
      | nil =>
        rw [List.append_nil] at hk
        exact absurd hk (Nat.not_le.mpr hshort)
      | cons e left =>
        obtain ⟨hentry, copy, hinc, hmerges⟩ := hw.merges.inc
        have hnext : Walk.At ⟨w.countNow + e.2, e.flt, w.sum + value e.flt * e.2, copy⟩
            (passed ++ [e]) left := by
          refine ⟨hmerges, ?_, ?_, ?_⟩
          · rw [total_concat, hw.countNow]
          · rw [weighted_concat, hw.sum]
          · intro es d heq
            exact congrArg Entry.flt (List.cons.inj (List.append_inj' heq rfl).2).1
        have hminimal' : Minimal k (passed ++ [e]) := by
          intro es d heq
          rw [← (List.append_inj' heq rfl).1]
          exact hshort
        obtain ⟨w', passed', left', hrun, hw', happend, hrest⟩ := ih hnext hminimal'
          (by rwa [List.append_assoc, List.singleton_append])
          (Nat.lt_of_succ_lt_succ hfuel)
        refine ⟨w', passed', left', ?_, hw', ?_, hrest⟩
        · dsimp only
          rw [hinc, hentry, Option.bind_some]
          exact hrun
        · rw [happend, List.append_assoc, List.singleton_append]

/-- The rank of the observation that a quantile is read at. -/
def rank (q : ℚ) (n : ℕ) : ℕ := max 1 ⌈q * n⌉₊

theorem rank_mono {q q' : ℚ} (h : q ≤ q') (n : ℕ) : rank q n ≤ rank q' n :=
  max_le_max_left _ (Nat.ceil_mono (mul_le_mul_of_nonneg_right h (Nat.cast_nonneg n)))

theorem rank_le {q : ℚ} {n : ℕ} (hn : 0 < n) (hq : q ≤ 1) : rank q n ≤ n := by
  refine max_le hn (Nat.ceil_le.mpr ?_)
  exact mul_le_of_le_one_left (Nat.cast_nonneg n) hq

/-- One quantile is read at its rank. -/
theorem Walk.At.quantile {q : ℚ} (hw : w.At passed left) (hpos : 0 ≤ q) (hone : q ≤ 1)
    (hn : 0 < total (passed ++ left))
    (hminimal : Minimal (rank q (total (passed ++ left))) passed) :
    ∃ w' passed' left', w.quantile (total (passed ++ left)) (some q) = some w' ∧
      w'.At passed' left' ∧ passed' ++ left' = passed ++ left ∧
      Minimal (rank q (total (passed ++ left))) passed' ∧
      rank q (total (passed ++ left)) ≤ total passed' := by
  have hfuel : left.length < w.copy.size + 1 := by
    rw [hw.merges.size_eq]
    exact Nat.lt_succ_self _
  generalize hcount : total (passed ++ left) = n at hn hminimal ⊢
  have htarget : ∀ m : ℕ, (if q = 0 then min 1 (n : ℚ) else min (q * n) n) ≤ m ↔ rank q n ≤ m := by
    intro m
    by_cases hzero : q = 0
    · have hmin : min 1 (n : ℚ) = 1 := min_eq_left (by exact_mod_cast hn)
      have hrank : rank q n = 1 := by
        rw [rank, hzero, zero_mul, Nat.ceil_zero]
        rfl
      rw [if_pos hzero, hmin, hrank]
      exact_mod_cast Iff.rfl
    · have hmin : min (q * n) (n : ℚ) = q * n :=
        min_eq_left (mul_le_of_le_one_left (Nat.cast_nonneg n) hone)
      have hrank : rank q n = ⌈q * n⌉₊ := by
        refine max_eq_right (Nat.one_le_ceil_iff.mpr ?_)
        exact mul_pos (lt_of_le_of_ne hpos (Ne.symm hzero)) (by exact_mod_cast hn)
      rw [if_neg hzero, hmin, hrank, Nat.ceil_le]
  have hrun : w.quantile n (some q) =
      w.advance (if q = 0 then min 1 (n : ℚ) else min (q * n) n) (w.copy.size + 1) := by
    rw [Walk.quantile, if_neg (not_lt.mpr hpos)]
    simp only [if_neg (not_lt.mpr hone)]
  have hk : rank q n ≤ total (passed ++ left) := by
    rw [hcount]
    exact rank_le hn hone
  rw [hrun]
  exact hw.advance htarget hminimal hk hfuel

/-- What a walk is reading, as the observation of a rank. -/
theorem Walk.At.getElem? {k : ℕ} (hw : w.At passed left) (hminimal : Minimal k passed)
    (hk : k ≤ total passed) (hpos : 0 < k) : (flts (passed ++ left))[k - 1]? = some w.v := by
  rcases List.eq_nil_or_concat passed with rfl | ⟨es, e, rfl⟩
  · exact absurd hk (Nat.not_le.mpr hpos)
  · rw [List.concat_eq_append] at *
    rw [hw.v es e rfl, List.append_assoc, List.singleton_append]
    exact flts_getElem? (hminimal es e rfl) hk

theorem Minimal.mono {k k' : ℕ} (h : Minimal k passed) (hle : k ≤ k') : Minimal k' passed :=
  fun es e heq => Nat.lt_of_lt_of_le (h es e heq) hle

/-- The quantiles are read at their ranks, and the walk is behind the entry of the last rank. -/
theorem quantiles_eq {qs : List ℚ} {k : ℕ} (hw : w.At passed left) (hminimal : Minimal k passed)
    (hk : k ≤ total passed) (hn : 0 < total (passed ++ left)) (hsorted : qs.Pairwise (· ≤ ·))
    (hrange : ∀ q ∈ qs, 0 ≤ q ∧ q ≤ 1) (hfirst : ∀ q ∈ qs, k ≤ rank q (total (passed ++ left))) :
    ∃ result w' passed' left',
      Walk.quantiles (total (passed ++ left)) w (qs.map some) = some (result, w') ∧
      w'.At passed' left' ∧ passed' ++ left' = passed ++ left ∧
      (∀ q ∈ qs, rank q (total (passed ++ left)) ≤ total passed') ∧ k ≤ total passed' ∧
      result.map some =
        qs.map fun q => (flts (passed ++ left))[rank q (total (passed ++ left)) - 1]? := by
  induction qs generalizing w passed left k with
  | nil => exact ⟨[], w, passed, left, rfl, hw, rfl, nofun, hk, rfl⟩
  | cons q qs ih =>
    rw [List.pairwise_cons] at hsorted
    obtain ⟨hpos, hone⟩ := hrange q List.mem_cons_self
    have hkq := hfirst q List.mem_cons_self
    obtain ⟨w₁, passed₁, left₁, hrun, hw₁, happend, hminimal₁, hreached⟩ :=
      hw.quantile hpos hone hn (hminimal.mono hkq)
    have hread := hw₁.getElem? hminimal₁ hreached (Nat.lt_of_lt_of_le Nat.one_pos (le_max_left _ _))
    have hnext := ih hw₁ hminimal₁ hreached (by rwa [happend]) hsorted.2
      (fun p hp => hrange p (List.mem_cons_of_mem _ hp))
      (fun p hp => by rw [happend]; exact rank_mono (hsorted.1 p hp) _)
    rw [happend] at hnext hread
    obtain ⟨result, w', passed', left', hrest, hw', happend', hranks, hlast, hresult⟩ := hnext
    refine ⟨w₁.v :: result, w', passed', left', ?_, hw', happend', ?_, hkq.trans hlast, ?_⟩
    · rw [List.map_cons, Walk.quantiles, hrun, Option.bind_some, hrest]
      rfl
    · intro p hp
      rcases List.mem_cons.mp hp with rfl | hp
      · exact hlast
      · exact hranks p hp
    · rw [List.map_cons, List.map_cons, hresult, hread]

/-- The loop behind the quantiles stops at once at an entry of a number with sign, as its index is a
large `size_t`; else it goes to the end. -/
theorem sumRest_eq {c : DataCopy} {sum : ℚ} {fuel : ℕ} (hc : c.Merges left)
    (hrange : ∀ e ∈ left, -8192 ≤ e.1 ∧ e.1 < 8192) (hsorted : left.Pairwise fun a b => a.1 ≤ b.1)
    (hfuel : left.length < fuel) :
    sumRest fuel c sum =
      some (if ∃ e ∈ left.head?, e.1 < 0 then sum else sum + weighted left) := by
  have hhalf : ((bucketSize / 2 : ℕ) : ℤ) = 8192 := rfl
  induction fuel generalizing c left sum with
  | zero => exact absurd hfuel (Nat.not_lt_zero _)
  | succ fuel ih =>
    unfold sumRest
    cases left with
    | nil =>
      have hstop : ¬sizeT c.entry.1 < (bucketSize / 2 : ℕ) := by
        rw [hc.entry_of_nil, hhalf, sentinel_fst]
        decide
      rw [if_neg hstop, if_neg (by simp)]
      exact congrArg some (add_zero sum).symm
    | cons e left =>
      obtain ⟨hentry, c', hinc, hmerges⟩ := hc.inc
      obtain ⟨hlow, hhigh⟩ := hrange e List.mem_cons_self
      by_cases hneg : e.1 < 0
      · have hstop : ¬sizeT c.entry.1 < (bucketSize / 2 : ℕ) := by
          rw [hentry, hhalf, sizeT]
          omega
        rw [if_neg hstop, if_pos ⟨e, rfl, hneg⟩]
      · have hgo : sizeT c.entry.1 < (bucketSize / 2 : ℕ) := by
          rw [hentry, hhalf, sizeT]
          omega
        rw [List.pairwise_cons] at hsorted
        have hrest : ¬∃ d ∈ left.head?, d.1 < 0 := by
          rintro ⟨d, hd, hdneg⟩
          have := hsorted.1 d (List.mem_of_mem_head? hd)
          omega
        have hhead : ¬∃ d ∈ (e :: left).head?, d.1 < 0 := by
          rintro ⟨d, hd, hdneg⟩
          rw [List.head?_cons, Option.mem_some_iff] at hd
          exact hneg (hd ▸ hdneg)
        rw [if_pos hgo, hinc, Option.bind_some, hentry,
          ih hmerges (fun d hd => hrange d (List.mem_cons_of_mem _ hd)) hsorted.2
            (Nat.lt_of_succ_lt_succ hfuel), if_neg hrest, if_neg hhead, weighted_cons, add_assoc]

end Walk

end Yalantinglibs.Metric.Summary
