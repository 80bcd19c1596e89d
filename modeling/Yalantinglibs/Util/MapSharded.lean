import Mathlib.Algebra.Order.Ring.Int
import Mathlib.Data.Multiset.Filter
import Mathlib.Data.List.Nodup
import Mathlib.Data.List.GetD
import Mathlib.Data.List.Induction
import Mathlib.Tactic.Common

/-!
# The sharded map

`util/map_sharded.hpp`. The entries are spread over a number of maps by the hash of their keys, each
behind a lock of its own, and the number of all entries is counted beside them. An operation on a
key goes to one shard; the others go over all of them.

A shard is a list of entries, in the order in which the map goes over them. The order of an
`unordered_map` is not specified, and may change with every entry that is added.

## Main definitions

* `MapLock`, `MapSharded` — a shard, and the map
* `MapOp`, `MapSharded.step` — an operation, and what it returns
* `PlainMap.Step` — what the operation is on a single map
* `MapSharded.Meets` — when the two are alike

## Main results

* `refines_iff` — a run is one of a single map exactly where each of its operations meets the
  condition
-/

set_option autoImplicit false

namespace Yalantinglibs.Util

/-- The order in which a map goes over its entries once one has been added to a list of them. -/
structure IterationOrder (α : Type*) where
  arrange : List α → List α
  perm : ∀ l, (arrange l).Perm l

variable {K V : Type*}

/-! ### Callbacks -/

/-- A callback: its answer may depend on what it was called with before. -/
abbrev Callback (K V : Type*) := List (K × V) → K × V → Bool

/-- Call with the entries until an answer is false: all that it was called with, and whether every
answer was true. -/
def visit (op : Callback K V) : List (K × V) → List (K × V) → List (K × V) × Bool
  | visited, [] => (visited, true)
  | visited, e :: es => if op visited e then visit op (visited ++ [e]) es else (visited ++ [e], false)

/-! ### A shard -/

/-- `map_lock_t`. The map is made when it is first added to. -/
structure MapLock (K V : Type*) where
  map : Option (List (K × V)) := none

namespace MapLock

variable (m : MapLock K V)

/-- The entries, none where there is no map yet. -/
def entries : List (K × V) := m.map.getD []

/-- `erase_if`, and the number of the entries that are erased. -/
def eraseIf (p : K × V → Bool) : MapLock K V × ℕ :=
  match m.map with
  | none => (m, 0)
  | some es => (⟨some (es.filter fun e => !p e)⟩, es.countP p)

/-- `for_each`. The loop is left at the first answer that is false, and then it returns true too. -/
def forEach (op : Callback K V) (visited : List (K × V)) : List (K × V) × Bool :=
  match m.map with
  | none => (visited, true)
  | some es => ((visit op visited es).1, true)

variable [DecidableEq K]

def find (key : K) : Option V :=
  match m.map with
  | none => none
  | some es => (es.find? fun e => e.1 = key).map Prod.snd

/-- `try_emplace_with_op`: the value at the key, and whether it was added. -/
def tryEmplace (order : IterationOrder (K × V)) (key : K) (value : V) :
    MapLock K V × V × Bool :=
  match m.find key with
  | some old => (⟨some m.entries⟩, old, false)
  | none => (⟨some (order.arrange (m.entries ++ [(key, value)]))⟩, value, true)

def erase (key : K) : MapLock K V × ℕ := m.eraseIf fun e => e.1 = key

end MapLock

/-! ### The map -/

/-- An operation with its arguments. -/
inductive MapOp (K V : Type*)
  | find (key : K)
  | tryEmplace (key : K) (value : V)
  | erase (key : K)
  | eraseIf (p : K × V → Bool)
  | eraseOne (p : K × V → Bool)
  | forEach (op : Callback K V)
  | copy (p : V → Bool)
  | size

/-- What an operation returns, or has called its callback with. -/
inductive MapAnswer (K V : Type*)
  | found (value : Option V)
  | emplaced (value : V) (added : Bool)
  | erased (n : ℕ)
  | visited (entries : List (K × V))
  | copied (values : List V)
  | size (n : ℕ)

/-- An `int` that is set to a number. -/
def toInt (n : ℤ) : ℤ := (n + 2 ^ 31) % 2 ^ 32 - 2 ^ 31

/-- An `int64_t` that is set to a number. -/
def toInt64 (n : ℤ) : ℤ := (n + 2 ^ 63) % 2 ^ 64 - 2 ^ 63

/-- A `size_t` that is set to an `int`. -/
def toSize (n : ℤ) : ℕ := (n % 2 ^ 64).toNat

/-- `map_sharded_t`: the shards, and the `int64_t` that counts the entries. -/
structure MapSharded (K V : Type*) where
  shards : List (MapLock K V)
  size : ℤ

namespace MapSharded

def empty (shardNum : ℕ) : MapSharded K V := ⟨List.replicate shardNum {}, 0⟩

variable (s : MapSharded K V)

/-- The loop of `erase_if`: the shards, the `int` that counts, and what `size_` goes down by. -/
def eraseIfLoop (p : K × V → Bool) : ℤ → List (MapLock K V) → List (MapLock K V) × ℤ × ℕ
  | total, [] => ([], total, 0)
  | total, m :: ms =>
    let (m', result) := m.eraseIf p
    let (ms', total', erased) := eraseIfLoop p (toInt (total + result)) ms
    (m' :: ms', total', result + erased)

/-- The loop of `erase_one`, which ends at the first shard that something was erased from. -/
def eraseOneLoop (p : K × V → Bool) : List (MapLock K V) → List (MapLock K V) × ℤ × ℕ
  | [] => ([], 0, 0)
  | m :: ms =>
    let (m', result) := m.eraseIf p
    if result ≠ 0 then (m' :: ms, toInt result, result)
    else
      let (ms', total, erased) := eraseOneLoop p ms
      (m' :: ms', total, erased)

/-- The loop of `for_each`, which ends where a shard returns false. -/
def forEachLoop (op : Callback K V) : List (K × V) → List (MapLock K V) → List (K × V)
  | visited, [] => visited
  | visited, m :: ms =>
    match m.forEach op visited with
    | (visited, true) => forEachLoop op visited ms
    | (visited, false) => visited

variable [DecidableEq K] (order : IterationOrder (K × V)) (hash : K → ℕ)

/-- `get_sharded`. -/
def shardOf (key : K) : ℕ := hash key % s.shards.length

/-- An operation: what it returns, and the map behind it. -/
def step : MapOp K V → MapAnswer K V × MapSharded K V
  | .find key => (.found ((s.shards.getD (s.shardOf hash key) {}).find key), s)
  | .tryEmplace key value =>
    let i := s.shardOf hash key
    let (m, value, added) := (s.shards.getD i {}).tryEmplace order key value
    (.emplaced value added, ⟨s.shards.set i m, if added then toInt64 (s.size + 1) else s.size⟩)
  | .erase key =>
    let i := s.shardOf hash key
    let (m, result) := (s.shards.getD i {}).erase key
    (.erased result, ⟨s.shards.set i m, toInt64 (s.size - result)⟩)
  | .eraseIf p =>
    let (shards, total, erased) := eraseIfLoop p 0 s.shards
    (.erased (toSize total), ⟨shards, toInt64 (s.size - erased)⟩)
  | .eraseOne p =>
    let (shards, total, erased) := eraseOneLoop p s.shards
    (.erased (toSize total), ⟨shards, toInt64 (s.size - erased)⟩)
  | .forEach op => (.visited (forEachLoop op [] s.shards), s)
  | .copy p =>
    -- the callback that copies returns nothing, so that no shard is left early
    (.copied (((forEachLoop (fun _ _ => true) [] s.shards).filter fun e => p e.2).map Prod.snd), s)
  | .size => (.size (max s.size 0).toNat, s)

/-- The map behind a sequence of operations. -/
def run (ops : List (MapOp K V)) : MapSharded K V :=
  ops.foldl (fun s op => (s.step order hash op).2) s

end MapSharded

/-! ### A single map -/

namespace PlainMap

/-- What an operation does on a single map, which is the multiset of its entries. -/
def Step [DecidableEq K] (m : Multiset (K × V)) :
    MapOp K V → MapAnswer K V → Multiset (K × V) → Prop
  | .find key, a, m' => m' = m ∧ ∃ o, a = .found o ∧ ∀ v, o = some v ↔ (key, v) ∈ m
  | .tryEmplace key value, a, m' =>
    (∃ old, (key, old) ∈ m ∧ a = .emplaced old false ∧ m' = m) ∨
      (key ∉ m.map Prod.fst ∧ a = .emplaced value true ∧ m' = (key, value) ::ₘ m)
  | .erase key, a, m' =>
    a = .erased (m.countP fun e => e.1 = key) ∧ m' = m.filter fun e => e.1 ≠ key
  | .eraseIf p, a, m' =>
    a = .erased (m.countP fun e => p e = true) ∧ m' = m.filter fun e => p e = false
  | .eraseOne p, a, m' =>
    (∃ e, p e = true ∧ m = e ::ₘ m' ∧ a = .erased 1) ∨
      ((∀ e ∈ m, p e = false) ∧ m' = m ∧ a = .erased 0)
  | .forEach op, a, m' =>
    m' = m ∧ ∃ es : List (K × V), (es : Multiset (K × V)) = m ∧ a = .visited (visit op [] es).1
  | .copy p, a, m' =>
    m' = m ∧ ∃ vs : List V, a = .copied vs ∧
      (vs : Multiset V) = (m.filter fun e => p e.2 = true).map Prod.snd
  | .size, a, m' => m' = m ∧ a = .size m.card

end PlainMap

/-! ### When the two are alike -/

namespace MapSharded

/-- All entries, of whatever shard. -/
def entries (shards : List (MapLock K V)) : List (K × V) := shards.flatMap MapLock.entries

/-- The single map that the shards stand for. -/
def toMap (s : MapSharded K V) : Multiset (K × V) := entries s.shards

/-- The first shard with an entry to erase has no second one. -/
def FirstIsOnly (p : K × V → Bool) : List (MapLock K V) → Prop
  | [] => True
  | m :: ms => m.entries.countP p = 1 ∨ m.entries.countP p = 0 ∧ FirstIsOnly p ms

/-- There are no entries in the shards behind one where an answer is false. -/
def StopsInLast (op : Callback K V) : List (K × V) → List (MapLock K V) → Prop
  | _, [] => True
  | visited, m :: ms =>
    match visit op visited m.entries with
    | (visited, true) => StopsInLast op visited ms
    | (_, false) => entries ms = []

/-- The condition under which an operation is that of a single map. -/
def Meets (s : MapSharded K V) : MapOp K V → Prop
  | .eraseIf p =>
    let n := (entries s.shards).countP p
    n < 2 ^ 31 ∨ 2 ^ 64 - 2 ^ 31 ≤ n ∧ n < 2 ^ 64
  | .eraseOne p => FirstIsOnly p s.shards
  | .forEach op => StopsInLast op [] s.shards
  | .size => (entries s.shards).length < 2 ^ 63
  | .find _ | .tryEmplace _ _ | .erase _ | .copy _ => True

/-! ### The entries of the shards -/

@[simp] theorem entries_nil : entries ([] : List (MapLock K V)) = [] := rfl

@[simp] theorem entries_cons (m : MapLock K V) (ms : List (MapLock K V)) :
    entries (m :: ms) = m.entries ++ entries ms := rfl

@[simp] theorem entries_append (ms ms' : List (MapLock K V)) :
    entries (ms ++ ms') = entries ms ++ entries ms' := List.flatMap_append

theorem mem_entries {ms : List (MapLock K V)} {e : K × V} :
    e ∈ entries ms ↔ ∃ m ∈ ms, e ∈ m.entries := List.mem_flatMap

@[simp] theorem entries_replicate (n : ℕ) :
    entries (List.replicate n ({} : MapLock K V)) = [] := by
  induction n with
  | zero => rfl
  | succ n ih => rw [List.replicate_succ, entries_cons, ih]; rfl

/-! ### One shard -/

theorem eraseIf_entries (m : MapLock K V) (p : K × V → Bool) :
    (m.eraseIf p).1.entries = m.entries.filter fun e => !p e := by
  unfold MapLock.eraseIf MapLock.entries
  split <;> simp_all

theorem eraseIf_count (m : MapLock K V) (p : K × V → Bool) :
    (m.eraseIf p).2 = m.entries.countP p := by
  unfold MapLock.eraseIf MapLock.entries
  split <;> simp_all

theorem forEach_eq (m : MapLock K V) (op : Callback K V) (visited : List (K × V)) :
    m.forEach op visited = ((visit op visited m.entries).1, true) := by
  unfold MapLock.forEach MapLock.entries
  split <;> simp_all [visit]

theorem find_eq [DecidableEq K] (m : MapLock K V) (key : K) :
    m.find key = (m.entries.find? fun e => e.1 = key).map Prod.snd := by
  unfold MapLock.find MapLock.entries
  split <;> simp_all

/-- A shard with one entry for a key finds the value of that entry. -/
theorem find_eq_some_iff [DecidableEq K] {m : MapLock K V}
    (hm : (m.entries.map Prod.fst).Nodup) {key : K} {value : V} :
    m.find key = some value ↔ (key, value) ∈ m.entries := by
  rw [find_eq]
  constructor
  · intro h
    obtain ⟨e, he, rfl⟩ := Option.map_eq_some_iff.mp h
    have hkey : e.1 = key := by simpa using List.find?_some he
    exact hkey ▸ List.mem_of_find?_eq_some he
  · intro h
    obtain ⟨e, he⟩ : ∃ e, m.entries.find? (fun e => e.1 = key) = some e :=
      Option.isSome_iff_exists.mp (List.find?_isSome.mpr ⟨_, h, by simp⟩)
    have hkey : e.1 = key := by simpa using List.find?_some he
    have : e = (key, value) :=
      List.inj_on_of_nodup_map hm (List.mem_of_find?_eq_some he) h hkey
    rw [he, this]; rfl

theorem find_eq_none_iff [DecidableEq K] {m : MapLock K V} {key : K} :
    m.find key = none ↔ key ∉ m.entries.map Prod.fst := by
  rw [find_eq, Option.map_eq_none_iff, List.find?_eq_none]
  simp only [decide_eq_true_eq, List.mem_map, not_exists, not_and]

/-! ### The loops over the shards -/

theorem eraseIfLoop_entries (p : K × V → Bool) (total : ℤ) (ms : List (MapLock K V)) :
    entries (eraseIfLoop p total ms).1 = (entries ms).filter fun e => !p e := by
  induction ms generalizing total with
  | nil => rfl
  | cons m ms ih => simp [eraseIfLoop, eraseIf_entries, ih]

theorem eraseIfLoop_erased (p : K × V → Bool) (total : ℤ) (ms : List (MapLock K V)) :
    (eraseIfLoop p total ms).2.2 = (entries ms).countP p := by
  induction ms generalizing total with
  | nil => rfl
  | cons m ms ih => simp [eraseIfLoop, eraseIf_count, ih]

/-- What the `int` of `erase_if` counts up to. -/
theorem eraseIfLoop_total (p : K × V → Bool) (total : ℤ) (ms : List (MapLock K V))
    (htotal : toInt total = total) :
    (eraseIfLoop p total ms).2.1 = toInt (total + (entries ms).countP p) := by
  induction ms generalizing total with
  | nil => simp [eraseIfLoop, htotal]
  | cons m ms ih =>
    have hint : ∀ n : ℤ, toInt (toInt n) = toInt n := by intro n; unfold toInt; omega
    simp only [eraseIfLoop, eraseIf_count, entries_cons, List.countP_append, Int.natCast_add]
    rw [ih _ (hint _)]
    unfold toInt
    omega

/-- The shards are those of `erase_one`, of the first shard with an entry to erase, and those behind
it, or there is no entry to erase. -/
theorem eraseOneLoop_cases (p : K × V → Bool) (ms : List (MapLock K V)) :
    ((∀ e ∈ entries ms, p e = false) ∧ entries (eraseOneLoop p ms).1 = entries ms ∧
      (eraseOneLoop p ms).2 = (0, 0) ∧ FirstIsOnly p ms) ∨
    ∃ (es es' es'' : List (K × V)), (∀ e ∈ es, p e = false) ∧ es'.countP p ≠ 0 ∧
      entries ms = es ++ es' ++ es'' ∧
      entries (eraseOneLoop p ms).1 = es ++ (es'.filter fun e => !p e) ++ es'' ∧
      (eraseOneLoop p ms).2 = (toInt (es'.countP p), es'.countP p) ∧
      (FirstIsOnly p ms ↔ es'.countP p = 1) := by
  induction ms with
  | nil => exact .inl ⟨nofun, rfl, rfl, trivial⟩
  | cons m ms ih =>
    by_cases hm : m.entries.countP p = 0
    · have hloop : eraseOneLoop p (m :: ms) =
          ((m.eraseIf p).1 :: (eraseOneLoop p ms).1, (eraseOneLoop p ms).2) := by
        simp [eraseOneLoop, eraseIf_count, hm]
      have hnone : ∀ e ∈ m.entries, p e = false := by
        intro e he
        simpa using List.countP_eq_zero.mp hm e he
      have hkept : (m.entries.filter fun e => !p e) = m.entries :=
        List.filter_eq_self.mpr fun e he => by simp [hnone e he]
      rcases ih with ⟨hall, hentries, hcount, honly⟩ |
        ⟨es, es', es'', hes, hes', hms, hentries, hcount, honly⟩
      · left
        refine ⟨?_, ?_, by rw [hloop]; exact hcount, .inr ⟨hm, honly⟩⟩
        · intro e he
          rcases List.mem_append.mp he with h | h
          exacts [hnone e h, hall e h]
        · simp [hloop, eraseIf_entries, hkept, hentries]
      · right
        refine ⟨m.entries ++ es, es', es'', ?_, hes', ?_, ?_, by rw [hloop]; exact hcount, ?_⟩
        · intro e he
          rcases List.mem_append.mp he with h | h
          exacts [hnone e h, hes e h]
        · simp [hms]
        · simp [hloop, eraseIf_entries, hkept, hentries]
        · simp [FirstIsOnly, hm, honly]
    · right
      have hloop : eraseOneLoop p (m :: ms) =
          ((m.eraseIf p).1 :: ms, toInt (m.entries.countP p), m.entries.countP p) := by
        simp [eraseOneLoop, eraseIf_count, hm]
      refine ⟨[], m.entries, entries ms, nofun, hm, rfl, ?_, by rw [hloop], ?_⟩
      · simp [hloop, eraseIf_entries]
      · simp [FirstIsOnly, hm]

/-- A callback that is called with the entries of one list and then with those of another. -/
theorem visit_append (op : Callback K V) (visited es es' : List (K × V)) :
    visit op visited (es ++ es') =
      if (visit op visited es).2 then visit op (visit op visited es).1 es'
      else visit op visited es := by
  induction es generalizing visited with
  | nil => rfl
  | cons e es ih =>
    simp only [List.cons_append, visit]
    split
    · exact ih _
    · rfl

theorem forEachLoop_cons (op : Callback K V) (visited : List (K × V)) (m : MapLock K V)
    (ms : List (MapLock K V)) :
    forEachLoop op visited (m :: ms) = forEachLoop op (visit op visited m.entries).1 ms := by
  rw [forEachLoop, forEach_eq]

theorem visit_extends (op : Callback K V) (visited es : List (K × V)) :
    visited <+: (visit op visited es).1 := by
  induction es generalizing visited with
  | nil => exact List.prefix_rfl
  | cons e es ih =>
    rw [visit]
    split
    · exact (List.prefix_append _ _).trans (ih _)
    · exact List.prefix_append _ _

theorem forEachLoop_extends (op : Callback K V) (visited : List (K × V))
    (ms : List (MapLock K V)) : visited <+: forEachLoop op visited ms := by
  induction ms generalizing visited with
  | nil => exact List.prefix_rfl
  | cons m ms ih =>
    rw [forEachLoop_cons]
    exact (visit_extends op visited m.entries).trans (ih _)

/-- Where there are entries, the callback is called with one of them. -/
theorem forEachLoop_length (op : Callback K V) (visited : List (K × V))
    (ms : List (MapLock K V)) (h : entries ms ≠ []) :
    visited.length < (forEachLoop op visited ms).length := by
  induction ms generalizing visited with
  | nil => exact absurd rfl h
  | cons m ms ih =>
    rw [forEachLoop_cons]
    cases hm : m.entries with
    | nil => exact ih visited (by simpa [hm] using h)
    | cons e es =>
      have hfirst : visited.length < (visit op visited (e :: es)).1.length := by
        rw [visit]
        split
        · have := (visit_extends op (visited ++ [e]) es).length_le
          simp only [List.length_append, List.length_singleton] at this
          omega
        · simp
      exact hfirst.trans_le (forEachLoop_extends op _ ms).length_le

/-- A visit that is left early ends with the entry whose answer is false. -/
theorem visit_false (op : Callback K V) (visited es : List (K × V))
    (h : (visit op visited es).2 = false) :
    ∃ l e, (visit op visited es).1 = l ++ [e] ∧ op l e = false := by
  induction es generalizing visited with
  | nil => cases h
  | cons e es ih =>
    rw [visit] at h ⊢
    split at h
    · rename_i hop
      rw [if_pos hop]
      exact ih _ h
    · rename_i hop
      rw [if_neg hop]
      exact ⟨visited, e, rfl, by simpa using hop⟩

/-- Every answer of a visit is true, but for the last one. -/
theorem visit_true (op : Callback K V) (visited es l l' : List (K × V)) (e : K × V)
    (h : (visit op visited es).1 = l ++ e :: l') (hl : visited.length ≤ l.length) (hl' : l' ≠ []) :
    op l e = true := by
  induction es generalizing visited with
  | nil =>
    have := congrArg List.length h
    simp only [visit, List.length_append, List.length_cons] at this
    omega
  | cons e' es ih =>
    rw [visit] at h
    split at h
    · rename_i hop
      rcases hl.lt_or_eq with hlt | heq
      · exact ih _ h (by rw [List.length_append]; exact hlt)
      · -- the entry is the first one that the visit goes to
        obtain ⟨l'', hl''⟩ := visit_extends op (visited ++ [e']) es
        rw [h, List.append_assoc, List.singleton_append] at hl''
        obtain ⟨rfl, hcons⟩ := List.append_inj hl'' heq
        cases hcons
        exact hop
    · have := congrArg List.length h
      have hpos := List.length_pos_of_ne_nil hl'
      simp only [List.length_append, List.length_cons, List.length_nil] at this
      omega

/-- Where nothing is behind the shard of the first false answer, the shards are visited as one list
of their entries. -/
theorem forEachLoop_of_stopsInLast (op : Callback K V) (visited : List (K × V))
    (ms : List (MapLock K V)) (h : StopsInLast op visited ms) :
    forEachLoop op visited ms = (visit op visited (entries ms)).1 := by
  have hempty : ∀ (visited : List (K × V)) (ms : List (MapLock K V)), entries ms = [] →
      forEachLoop op visited ms = visited := by
    intro visited ms
    induction ms with
    | nil => exact fun _ => rfl
    | cons m ms ih =>
      intro hms
      obtain ⟨hm, hms⟩ := List.append_eq_nil_iff.mp hms
      rw [forEachLoop_cons, hm]
      exact ih hms
  induction ms generalizing visited with
  | nil => rfl
  | cons m ms ih =>
    rw [forEachLoop_cons, entries_cons, visit_append]
    rw [StopsInLast] at h
    split at h
    · rename_i v heq
      rw [heq, if_pos rfl]
      exact ih v h
    · rename_i v heq
      rw [heq, hempty _ _ h, if_neg nofun]

/-- Where there are entries behind it, the callback is called again behind a false answer. -/
theorem forEachLoop_of_not_stopsInLast (op : Callback K V) (visited : List (K × V))
    (ms : List (MapLock K V)) (h : ¬StopsInLast op visited ms) :
    ∃ l e l', forEachLoop op visited ms = l ++ e :: l' ∧ op l e = false ∧ l' ≠ [] := by
  induction ms generalizing visited with
  | nil => exact absurd trivial h
  | cons m ms ih =>
    rw [forEachLoop_cons]
    rw [StopsInLast] at h
    split at h
    · rename_i v heq
      rw [heq]
      exact ih v h
    · rename_i v heq
      rw [heq]
      obtain ⟨l, e, hv, hop⟩ := visit_false op visited m.entries (by rw [heq])
      rw [heq] at hv
      change v = l ++ [e] at hv
      obtain ⟨l', hl'⟩ := forEachLoop_extends op v ms
      refine ⟨l, e, l', by rw [← hl', hv]; simp, hop, ?_⟩
      rintro rfl
      have := forEachLoop_length op v ms h
      rw [← hl', List.append_nil] at this
      exact lt_irrefl _ this

/-! ### The invariant -/

/-- Every entry is in the shard of its key, no shard has two entries for a key, and the count is
that of all entries. -/
structure WellFormed (hash : K → ℕ) (s : MapSharded K V) : Prop where
  placed : ∀ i m, s.shards[i]? = some m → ∀ e ∈ m.entries, hash e.1 % s.shards.length = i
  nodup : ∀ m ∈ s.shards, (m.entries.map Prod.fst).Nodup
  size : s.size = toInt64 (entries s.shards).length

theorem wellFormed_empty (hash : K → ℕ) (n : ℕ) : WellFormed (V := V) hash (empty n) where
  placed i m hm e he := by
    obtain rfl : m = {} := List.eq_of_mem_replicate (List.mem_of_getElem? hm)
    cases he
  nodup m hm := by
    obtain rfl := List.eq_of_mem_replicate hm
    exact List.nodup_nil
  size := by
    have : entries (empty (K := K) (V := V) n).shards = [] := entries_replicate n
    rw [this]
    simp [empty, toInt64]

/-- Entries may be taken out of the shards. -/
theorem WellFormed.of_sublist {hash : K → ℕ} {s : MapSharded K V} (h : WellFormed hash s)
    {shards : List (MapLock K V)} {size : ℤ}
    (hs : List.Forall₂ (fun m m' => m'.entries.Sublist m.entries) s.shards shards)
    (hsize : size = toInt64 (entries shards).length) : WellFormed hash ⟨shards, size⟩ where
  placed i m' hm' e he := by
    obtain ⟨hi, rfl⟩ := List.getElem?_eq_some_iff.mp hm'
    have hi' : i < s.shards.length := hs.length_eq ▸ hi
    have hsub : shards[i].entries.Sublist s.shards[i].entries := hs.get hi' hi
    have := h.placed i s.shards[i] (List.getElem?_eq_getElem hi') e (hsub.subset he)
    rwa [hs.length_eq] at this
  nodup m' hm' := by
    obtain ⟨i, hi, rfl⟩ := List.getElem_of_mem hm'
    have hi' : i < s.shards.length := hs.length_eq ▸ hi
    have hsub : shards[i].entries.Sublist s.shards[i].entries := hs.get hi' hi
    exact (h.nodup _ (List.getElem_mem hi')).sublist (hsub.map _)
  size := hsize

theorem eraseIf_sublist (m : MapLock K V) (p : K × V → Bool) :
    (m.eraseIf p).1.entries.Sublist m.entries := by
  rw [eraseIf_entries]
  exact List.filter_sublist

theorem eraseIfLoop_sublist (p : K × V → Bool) (total : ℤ) (ms : List (MapLock K V)) :
    List.Forall₂ (fun m m' => m'.entries.Sublist m.entries) ms (eraseIfLoop p total ms).1 := by
  induction ms generalizing total with
  | nil => exact .nil
  | cons m ms ih => exact .cons (eraseIf_sublist m p) (ih _)

theorem eraseOneLoop_sublist (p : K × V → Bool) (ms : List (MapLock K V)) :
    List.Forall₂ (fun m m' => m'.entries.Sublist m.entries) ms (eraseOneLoop p ms).1 := by
  induction ms with
  | nil => exact .nil
  | cons m ms ih =>
    by_cases hm : (m.eraseIf p).2 = 0
    · have : (eraseOneLoop p (m :: ms)).1 = (m.eraseIf p).1 :: (eraseOneLoop p ms).1 := by
        simp [eraseOneLoop, hm]
      rw [this]
      exact .cons (eraseIf_sublist m p) ih
    · have : (eraseOneLoop p (m :: ms)).1 = (m.eraseIf p).1 :: ms := by simp [eraseOneLoop, hm]
      rw [this]
      exact .cons (eraseIf_sublist m p)
        (List.forall₂_same.mpr fun m' _ => List.Sublist.refl m'.entries)

/-- Another shard may take the place of one, with entries whose keys belong there. -/
theorem WellFormed.set {hash : K → ℕ} {s : MapSharded K V} (h : WellFormed hash s) (i : ℕ)
    {m : MapLock K V} {size : ℤ} (hm : ∀ e ∈ m.entries, hash e.1 % s.shards.length = i)
    (hnodup : (m.entries.map Prod.fst).Nodup)
    (hsize : size = toInt64 (entries (s.shards.set i m)).length) :
    WellFormed hash ⟨s.shards.set i m, size⟩ where
  placed j m' hm' e he := by
    rw [List.length_set]
    rw [List.getElem?_set] at hm'
    split at hm'
    · rename_i hij
      split at hm'
      · cases hm'
        exact hij ▸ hm e he
      · cases hm'
    · exact h.placed j m' hm' e he
  nodup m' hm' := by
    rcases List.mem_or_eq_of_mem_set hm' with hold | rfl
    exacts [h.nodup m' hold, hnodup]
  size := hsize

/-- The shard of a key among the others, where the key is in no entry. -/
theorem WellFormed.exists_split {hash : K → ℕ} {s : MapSharded K V} (h : WellFormed hash s)
    (hpos : 0 < s.shards.length) (key : K) :
    ∃ (l : List (MapLock K V)) (m : MapLock K V) (r : List (MapLock K V)), s.shards = l ++ m :: r ∧
      s.shards.getD (s.shardOf hash key) {} = m ∧
      (∀ m', s.shards.set (s.shardOf hash key) m' = l ++ m' :: r) ∧
      (m.entries.map Prod.fst).Nodup ∧
      (∀ e ∈ entries l, e.1 ≠ key) ∧ ∀ e ∈ entries r, e.1 ≠ key := by
  have hi : s.shardOf hash key < s.shards.length := Nat.mod_lt _ hpos
  obtain ⟨l, r, hs, hl⟩ : ∃ l r, s.shards = l ++ s.shards[s.shardOf hash key] :: r ∧
      l.length = s.shardOf hash key :=
    ⟨s.shards.take (s.shardOf hash key), s.shards.drop (s.shardOf hash key + 1),
      by simp, by simp; omega⟩
  -- an entry for the key in another shard would be in the wrong one
  have hother : ∀ i m, s.shards[i]? = some m → i ≠ s.shardOf hash key → ∀ e ∈ m.entries,
      e.1 ≠ key := by
    rintro i m hm hne e he rfl
    exact hne (h.placed i m hm e he).symm
  refine ⟨l, _, r, hs, by simp [hi], ?_, h.nodup _ (List.getElem_mem hi), ?_, ?_⟩
  · intro m'
    rw [← hl]
    conv_lhs => rw [hs]
    simp
  · intro e he
    obtain ⟨m, hm, hem⟩ := mem_entries.mp he
    obtain ⟨i, hil, rfl⟩ := List.getElem_of_mem hm
    refine hother i l[i] ?_ (by omega) e hem
    rw [hs, List.getElem?_append_left hil, List.getElem?_eq_getElem hil]
  · intro e he
    obtain ⟨m, hm, hem⟩ := mem_entries.mp he
    obtain ⟨i, hir, rfl⟩ := List.getElem_of_mem hm
    refine hother (l.length + 1 + i) r[i] ?_ (by omega) e hem
    rw [hs, List.getElem?_append_right (by omega)]
    have : l.length + 1 + i - l.length = i + 1 := by omega
    rw [this, List.getElem?_cons_succ, List.getElem?_eq_getElem hir]

/-! ### An operation -/

section Operation

variable [DecidableEq K] {order : IterationOrder (K × V)} {hash : K → ℕ} {s : MapSharded K V}

theorem toInt64_toInt64_add (n k : ℤ) : toInt64 (toInt64 n + k) = toInt64 (n + k) := by
  unfold toInt64
  omega

/-- What `size_` is set to when entries are taken out. -/
theorem toInt64_sub_of_add_eq {n erased left : ℕ} (h : left + erased = n) :
    toInt64 (toInt64 n - erased) = toInt64 left := by
  rw [Int.sub_eq_add_neg, toInt64_toInt64_add]
  congr 1
  omega

omit [DecidableEq K] in
/-- The entries of the shard of a key are where they belong. -/
theorem WellFormed.placed_shardOf (h : WellFormed hash s) (hpos : 0 < s.shards.length) (key : K) :
    ∀ e ∈ (s.shards.getD (s.shardOf hash key) {}).entries,
      hash e.1 % s.shards.length = s.shardOf hash key := by
  have hi : s.shardOf hash key < s.shards.length := Nat.mod_lt _ hpos
  rw [List.getD_eq_getElem _ _ hi]
  exact h.placed _ _ (List.getElem?_eq_getElem hi)

/-- Adding an entry, or finding that there is one. -/
theorem step_tryEmplace (h : WellFormed hash s) (hpos : 0 < s.shards.length) (key : K) (value : V) :
    WellFormed hash (s.step order hash (.tryEmplace key value)).2 ∧
      PlainMap.Step s.toMap (.tryEmplace key value) (s.step order hash (.tryEmplace key value)).1
        (s.step order hash (.tryEmplace key value)).2.toMap := by
  obtain ⟨l, m, r, hs, hget, hset, hm, hl, hr⟩ := h.exists_split hpos key
  have hplaced := hget ▸ h.placed_shardOf hpos key
  cases hfind : m.find key with
  | some old =>
    have hstep : s.step order hash (.tryEmplace key value) = (.emplaced old false,
        ⟨s.shards.set (s.shardOf hash key) ⟨some m.entries⟩, s.size⟩) := by
      simp only [step, hget, MapLock.tryEmplace, hfind, Bool.false_eq_true, if_false]
    have hentries : entries (s.shards.set (s.shardOf hash key) ⟨some m.entries⟩) =
        entries s.shards := by
      rw [hset, hs]
      simp [MapLock.entries]
    rw [hstep]
    refine ⟨h.set _ hplaced hm (by rw [h.size, hentries]), .inl ⟨old, ?_, rfl, ?_⟩⟩
    · have : (key, old) ∈ entries s.shards := by
        rw [hs]
        simp [(find_eq_some_iff hm).mp hfind]
      exact this
    · change (entries (s.shards.set _ _) : Multiset (K × V)) = entries s.shards
      rw [hentries]
  | none =>
    have hnot := find_eq_none_iff.mp hfind
    have hperm := order.perm (m.entries ++ [(key, value)])
    have hstep : s.step order hash (.tryEmplace key value) = (.emplaced value true,
        ⟨s.shards.set (s.shardOf hash key) ⟨some (order.arrange (m.entries ++ [(key, value)]))⟩,
          toInt64 (s.size + 1)⟩) := by
      simp only [step, hget, MapLock.tryEmplace, hfind, if_true]
    have hentries : (entries (s.shards.set (s.shardOf hash key)
        ⟨some (order.arrange (m.entries ++ [(key, value)]))⟩)).Perm
          ((key, value) :: entries s.shards) := by
      rw [hset, hs]
      simp only [entries_append, entries_cons, MapLock.entries, Option.getD_some]
      refine ((hperm.append_right _).append_left _).trans ?_
      simp only [← List.append_assoc, MapLock.entries]
      rw [List.append_assoc]
      exact (List.perm_middle).trans (by simp)
    rw [hstep]
    refine ⟨h.set _ ?_ ?_ ?_, .inr ⟨?_, rfl, ?_⟩⟩
    · intro e he
      rcases List.mem_append.mp (hperm.subset he) with hold | hnew
      · exact hplaced e hold
      · cases List.mem_singleton.mp hnew
        rfl
    · refine ((hperm.map Prod.fst).nodup_iff).mpr ?_
      rw [List.map_append]
      exact hm.append (List.nodup_singleton _) (by simpa [List.disjoint_singleton] using hnot)
    · rw [h.size, toInt64_toInt64_add, hentries.length_eq]
      rfl
    · simp only [toMap, hs, Multiset.map_coe, Multiset.mem_coe, List.mem_map, not_exists, not_and]
      intro e he
      rw [entries_append, entries_cons] at he
      rcases List.mem_append.mp he with he | he
      · exact hl e he
      · rcases List.mem_append.mp he with he | he
        · exact fun hkey => hnot (hkey ▸ List.mem_map_of_mem he)
        · exact hr e he
    · exact Quot.sound hentries

/-- Erasing the entry for a key, which is in the shard of the key. -/
theorem step_erase (h : WellFormed hash s) (hpos : 0 < s.shards.length) (key : K) :
    WellFormed hash (s.step order hash (.erase key)).2 ∧
      PlainMap.Step s.toMap (.erase key) (s.step order hash (.erase key)).1
        (s.step order hash (.erase key)).2.toMap := by
  obtain ⟨l, m, r, hs, hget, hset, hm, hl, hr⟩ := h.exists_split hpos key
  have hplaced := hget ▸ h.placed_shardOf hpos key
  let m' : MapLock K V := (m.erase key).1
  have hm' : m'.entries = m.entries.filter fun e => !decide (e.1 = key) := eraseIf_entries _ _
  have hcount : (m.erase key).2 = m.entries.countP fun e => e.1 = key := eraseIf_count _ _
  have hstep : s.step order hash (.erase key) = (.erased (m.erase key).2,
      ⟨s.shards.set (s.shardOf hash key) m', toInt64 (s.size - (m.erase key).2)⟩) := by
    simp only [step, hget, m']
  -- no other shard has an entry for the key
  have hkept : ∀ es : List (K × V), (∀ e ∈ es, e.1 ≠ key) →
      (es.filter fun e => !decide (e.1 = key)) = es := by
    intro es hes
    refine List.filter_eq_self.mpr fun e he => ?_
    simp [hes e he]
  have hnone : ∀ es : List (K × V), (∀ e ∈ es, e.1 ≠ key) →
      es.countP (fun e => e.1 = key) = 0 := by
    intro es hes
    refine List.countP_eq_zero.mpr fun e he => ?_
    simp [hes e he]
  have hentries : entries (s.shards.set (s.shardOf hash key) m') =
      (entries s.shards).filter fun e => !decide (e.1 = key) := by
    rw [hset, hs]
    simp only [entries_append, entries_cons, List.filter_append, hkept _ hl, hkept _ hr, hm']
  have hall : (entries s.shards).countP (fun e => e.1 = key) = (m.erase key).2 := by
    rw [hs, hcount]
    simp only [entries_append, entries_cons, List.countP_append, hnone _ hl, hnone _ hr]
    omega
  rw [hstep]
  refine ⟨h.set _ ?_ ?_ ?_, ?_, ?_⟩
  · intro e he
    exact hplaced e (List.mem_of_mem_filter (hm' ▸ he))
  · rw [hm']
    exact hm.sublist (List.filter_sublist.map _)
  · rw [h.size, hentries, ← hall]
    refine toInt64_sub_of_add_eq ?_
    have := List.length_eq_countP_add_countP (fun e => decide (e.1 = key)) (l := entries s.shards)
    rw [← List.countP_eq_length_filter]
    simp only [Bool.not_eq_true, Bool.decide_eq_false] at this
    omega
  · rw [toMap, Multiset.coe_countP, ← hall]
  · change (entries (s.shards.set _ _) : Multiset (K × V)) = _
    rw [hentries, toMap, Multiset.filter_coe]
    simp only [← decide_not]

/-- An entry for the key is in the shard that is searched. -/
theorem step_find (h : WellFormed hash s) (hpos : 0 < s.shards.length) (key : K) :
    PlainMap.Step s.toMap (.find key) (s.step order hash (.find key)).1
      (s.step order hash (.find key)).2.toMap := by
  obtain ⟨l, m, r, hs, hget, -, hm, hl, hr⟩ := h.exists_split hpos key
  refine ⟨rfl, m.find key, by rw [step, hget], fun v => ?_⟩
  rw [find_eq_some_iff hm, toMap, Multiset.mem_coe, hs, entries_append, entries_cons]
  constructor
  · intro hv
    exact List.mem_append_right _ (List.mem_append_left _ hv)
  · intro hv
    rcases List.mem_append.mp hv with hv | hv
    · exact absurd rfl (hl _ hv)
    · rcases List.mem_append.mp hv with hv | hv
      exacts [hv, absurd rfl (hr _ hv)]

omit [DecidableEq K] in
theorem length_filter_not_add_countP (p : K × V → Bool) (es : List (K × V)) :
    (es.filter fun e => !p e).length + es.countP p = es.length := by
  have := List.length_eq_countP_add_countP p (l := es)
  rw [← List.countP_eq_length_filter]
  simp only [Bool.not_eq_true, Bool.decide_eq_false] at this
  omega

theorem step_eraseIf_wellFormed (h : WellFormed hash s) (p : K × V → Bool) :
    WellFormed hash (s.step order hash (.eraseIf p)).2 := by
  refine h.of_sublist (eraseIfLoop_sublist p 0 s.shards) ?_
  rw [h.size, eraseIfLoop_erased, eraseIfLoop_entries]
  exact toInt64_sub_of_add_eq (length_filter_not_add_countP p _)

/-- An `int` counts the entries, and is returned as a `size_t`. -/
theorem toSize_toInt_eq_iff (n : ℕ) :
    toSize (toInt n) = n ↔ n < 2 ^ 31 ∨ 2 ^ 64 - 2 ^ 31 ≤ n ∧ n < 2 ^ 64 := by
  unfold toSize toInt
  omega

/-- The entries are those that are left, and their number is returned if it is not too large. -/
theorem step_eraseIf_iff (p : K × V → Bool) :
    PlainMap.Step s.toMap (.eraseIf p) (s.step order hash (.eraseIf p)).1
      (s.step order hash (.eraseIf p)).2.toMap ↔ s.Meets (.eraseIf p) := by
  have hstep : s.step order hash (.eraseIf p) =
      (.erased (toSize (toInt ((entries s.shards).countP p))),
        ⟨(eraseIfLoop p 0 s.shards).1, toInt64 (s.size - (eraseIfLoop p 0 s.shards).2.2)⟩) := by
    have htotal := eraseIfLoop_total p 0 s.shards rfl
    rw [Int.zero_add] at htotal
    rw [← htotal, step]
  have hleft : toMap ⟨(eraseIfLoop p 0 s.shards).1,
      toInt64 (s.size - (eraseIfLoop p 0 s.shards).2.2)⟩ = s.toMap.filter fun e => p e = false := by
    rw [toMap, toMap, Multiset.filter_coe]
    simp only [eraseIfLoop_entries, ← Bool.not_eq_true]
    congr 2
    funext e
    cases p e <;> rfl
  rw [hstep, Meets, ← toSize_toInt_eq_iff]
  constructor
  · rintro ⟨hans, -⟩
    rw [toMap, Multiset.coe_countP] at hans
    simpa using hans
  · intro hn
    refine ⟨?_, hleft⟩
    rw [hn, toMap, Multiset.coe_countP]
    simp

theorem step_eraseOne_wellFormed (h : WellFormed hash s) (p : K × V → Bool) :
    WellFormed hash (s.step order hash (.eraseOne p)).2 := by
  change WellFormed hash ⟨(eraseOneLoop p s.shards).1,
    toInt64 (s.size - (eraseOneLoop p s.shards).2.2)⟩
  refine h.of_sublist (eraseOneLoop_sublist p s.shards) ?_
  rw [h.size]
  rcases eraseOneLoop_cases p s.shards with ⟨-, hentries, hcount, -⟩ |
    ⟨es, es', es'', -, -, hms, hentries, hcount, -⟩
  · rw [hcount, hentries]
    exact toInt64_sub_of_add_eq (by simp)
  · rw [hcount, hentries, hms]
    refine toInt64_sub_of_add_eq ?_
    have := length_filter_not_add_countP p es'
    simp only [List.length_append]
    omega

/-- The entries of one shard that are to be erased are all erased. -/
theorem step_eraseOne_iff (p : K × V → Bool) :
    PlainMap.Step s.toMap (.eraseOne p) (s.step order hash (.eraseOne p)).1
      (s.step order hash (.eraseOne p)).2.toMap ↔ s.Meets (.eraseOne p) := by
  have hstep : s.step order hash (.eraseOne p) =
      (.erased (toSize (eraseOneLoop p s.shards).2.1),
        ⟨(eraseOneLoop p s.shards).1, toInt64 (s.size - (eraseOneLoop p s.shards).2.2)⟩) := rfl
  rw [hstep, Meets]
  rcases eraseOneLoop_cases p s.shards with ⟨hall, hentries, hcount, honly⟩ |
    ⟨es, es', es'', hes, hes', hms, hentries, hcount, honly⟩
  · refine iff_of_true (.inr ⟨hall, ?_, by rw [hcount]; rfl⟩) honly
    rw [toMap, hentries, toMap]
  · rw [honly]
    constructor
    · rintro (⟨e, -, hm, -⟩ | ⟨hall, -⟩)
      · -- one entry is erased
        have := congrArg Multiset.card hm
        simp only [toMap, hentries, hms, Multiset.card_cons, Multiset.coe_card,
          List.length_append] at this
        have := length_filter_not_add_countP p es'
        omega
      · refine absurd (List.countP_eq_zero.mpr fun e he => ?_) hes'
        have : e ∈ s.toMap := by
          rw [toMap, hms]
          simp [he]
        simp [hall e this]
    · intro hone
      obtain ⟨e, he⟩ : ∃ e, es'.filter p = [e] := by
        rw [← List.length_eq_one_iff, ← List.countP_eq_length_filter]
        exact hone
      have hpe : p e = true := by
        have : e ∈ es'.filter p := he ▸ List.mem_singleton_self e
        exact (List.mem_filter.mp this).2
      refine .inl ⟨e, hpe, ?_, by rw [hcount, hone]; rfl⟩
      have hperm : (es'.filter p ++ es'.filter fun e => !p e).Perm es' :=
        List.filter_append_perm p es'
      rw [he] at hperm
      simp only [toMap, hentries, hms, Multiset.cons_coe, Multiset.coe_eq_coe]
      refine ((hperm.symm.append_left es).append_right es'').trans ?_
      simp

/-- The shards are gone over as one list exactly where the first false answer ends the loop. -/
theorem step_forEach_iff (op : Callback K V) :
    PlainMap.Step s.toMap (.forEach op) (s.step order hash (.forEach op)).1
      (s.step order hash (.forEach op)).2.toMap ↔ s.Meets (.forEach op) := by
  constructor
  · rintro ⟨-, es, -, hvisited⟩
    have hloop : forEachLoop op [] s.shards = (visit op [] es).1 := by
      injection hvisited
    by_contra hnot
    obtain ⟨l, e, l', heq, hfalse, hl'⟩ := forEachLoop_of_not_stopsInLast op [] s.shards hnot
    have htrue := visit_true op [] es l l' e (hloop ▸ heq) (Nat.zero_le _) hl'
    rw [hfalse] at htrue
    cases htrue
  · intro hstops
    exact ⟨rfl, entries s.shards, rfl,
      congrArg MapAnswer.visited (forEachLoop_of_stopsInLast op [] s.shards hstops)⟩

omit [DecidableEq K] in
theorem visit_all (visited es : List (K × V)) :
    (visit (fun _ _ => true) visited es).1 = visited ++ es := by
  induction es generalizing visited with
  | nil => simp [visit]
  | cons e es ih => rw [visit, if_pos rfl, ih, List.append_assoc, List.singleton_append]

omit [DecidableEq K] in
theorem forEachLoop_all (visited : List (K × V)) (ms : List (MapLock K V)) :
    forEachLoop (fun _ _ => true) visited ms = visited ++ entries ms := by
  induction ms generalizing visited with
  | nil => simp [forEachLoop]
  | cons m ms ih => rw [forEachLoop_cons, visit_all, ih, entries_cons, List.append_assoc]

theorem step_copy (p : V → Bool) :
    PlainMap.Step s.toMap (.copy p) (s.step order hash (.copy p)).1
      (s.step order hash (.copy p)).2.toMap := by
  refine ⟨rfl, _, rfl, ?_⟩
  rw [forEachLoop_all, List.nil_append, toMap, Multiset.filter_coe, Multiset.map_coe]
  simp

/-- The count is the number of entries as long as an `int64_t` holds it. -/
theorem step_size_iff (h : WellFormed hash s) :
    PlainMap.Step s.toMap .size (s.step order hash .size).1 (s.step order hash .size).2.toMap ↔
      s.Meets .size := by
  have hans : (max s.size 0).toNat = (entries s.shards).length ↔
      (entries s.shards).length < 2 ^ 63 := by
    rw [h.size]
    unfold toInt64
    omega
  rw [Meets, ← hans]
  constructor
  · rintro ⟨-, heq⟩
    injection heq
  · intro heq
    exact ⟨rfl, congrArg MapAnswer.size heq⟩

omit [DecidableEq K] in
theorem length_eraseIfLoop (p : K × V → Bool) (total : ℤ) (ms : List (MapLock K V)) :
    (eraseIfLoop p total ms).1.length = ms.length :=
  (eraseIfLoop_sublist p total ms).length_eq.symm

/-- An operation keeps the shards, and the invariant. -/
theorem step_keeps (h : WellFormed hash s) (hpos : 0 < s.shards.length) (op : MapOp K V) :
    WellFormed hash (s.step order hash op).2 ∧
      (s.step order hash op).2.shards.length = s.shards.length := by
  cases op with
  | find key => exact ⟨h, rfl⟩
  | tryEmplace key value =>
    exact ⟨(step_tryEmplace h hpos key value).1, List.length_set⟩
  | erase key => exact ⟨(step_erase h hpos key).1, List.length_set⟩
  | eraseIf p => exact ⟨step_eraseIf_wellFormed h p, length_eraseIfLoop p 0 _⟩
  | eraseOne p =>
    exact ⟨step_eraseOne_wellFormed h p, (eraseOneLoop_sublist p s.shards).length_eq.symm⟩
  | forEach op => exact ⟨h, rfl⟩
  | copy p => exact ⟨h, rfl⟩
  | size => exact ⟨h, rfl⟩

/-- An operation is that of a single map exactly under its condition. -/
theorem step_iff (h : WellFormed hash s) (hpos : 0 < s.shards.length) (op : MapOp K V) :
    PlainMap.Step s.toMap op (s.step order hash op).1 (s.step order hash op).2.toMap ↔
      s.Meets op := by
  cases op with
  | find key => exact iff_of_true (step_find h hpos key) trivial
  | tryEmplace key value => exact iff_of_true (step_tryEmplace h hpos key value).2 trivial
  | erase key => exact iff_of_true (step_erase h hpos key).2 trivial
  | eraseIf p => exact step_eraseIf_iff p
  | eraseOne p => exact step_eraseOne_iff p
  | forEach op => exact step_forEach_iff op
  | copy p => exact iff_of_true (step_copy p) trivial
  | size => exact step_size_iff h

end Operation

/-! ### A run -/

section Run

variable [DecidableEq K] (order : IterationOrder (K × V)) (hash : K → ℕ)

theorem run_keeps {n : ℕ} (hn : 0 < n) (ops : List (MapOp K V)) :
    WellFormed hash (run (empty n) order hash ops) ∧
      (run (empty n) order hash ops).shards.length = n := by
  induction ops using List.reverseRecOn with
  | nil => exact ⟨wellFormed_empty hash n, List.length_replicate⟩
  | append_singleton ops op ih =>
    rw [run, List.foldl_append]
    have hkeeps : WellFormed hash ((run (empty n) order hash ops).step order hash op).2 ∧
        ((run (empty n) order hash ops).step order hash op).2.shards.length =
          (run (empty n) order hash ops).shards.length :=
      step_keeps ih.1 (ih.2.symm ▸ hn) op
    exact ⟨hkeeps.1, hkeeps.2.trans ih.2⟩

/-- Each operation of a run does what it does on a single map, which the entries of the shards are,
exactly where each operation meets its condition. -/
theorem refines_iff {n : ℕ} (hn : 0 < n) (ops : List (MapOp K V)) :
    (∀ pre op post, ops = pre ++ op :: post →
      PlainMap.Step (run (empty n) order hash pre).toMap op
        ((run (empty n) order hash pre).step order hash op).1
        ((run (empty n) order hash pre).step order hash op).2.toMap) ↔
      ∀ pre op post, ops = pre ++ op :: post → (run (empty n) order hash pre).Meets op := by
  have hstep : ∀ pre op, PlainMap.Step (run (empty n) order hash pre).toMap op
      ((run (empty n) order hash pre).step order hash op).1
      ((run (empty n) order hash pre).step order hash op).2.toMap ↔
        (run (empty n) order hash pre).Meets op := by
    intro pre op
    obtain ⟨hwf, hlen⟩ := run_keeps order hash hn pre
    exact step_iff hwf (hlen.symm ▸ hn) op
  simp only [hstep]

/-- The order in which entries are added. -/
def insertionOrder (α : Type*) : IterationOrder α := ⟨id, fun l => List.Perm.refl l⟩

/-- Entries for two keys are added to two shards, one of them twice, and one is erased. -/
theorem refines_two_keys :
    PlainMap.Step (run (empty 2) (insertionOrder _) id
        [.tryEmplace 4 40, .tryEmplace 5 50, .tryEmplace 4 41]).toMap (.erase 4)
      ((run (empty 2) (insertionOrder _) id
        [.tryEmplace 4 40, .tryEmplace 5 50, .tryEmplace 4 41]).step (insertionOrder _) id
          (.erase 4)).1
      ((run (empty 2) (insertionOrder _) id
        [.tryEmplace 4 40, .tryEmplace 5 50, .tryEmplace 4 41]).step (insertionOrder _) id
          (.erase 4)).2.toMap := by
  refine (refines_iff (insertionOrder (ℕ × ℕ)) id (by decide) [.tryEmplace 4 40, .tryEmplace 5 50,
    .tryEmplace 4 41, .erase 4, .find 5]).mpr ?_ _ (.erase 4) [.find 5] rfl
  intro pre op post h
  have hmem : op ∈ [MapOp.tryEmplace 4 40, .tryEmplace 5 50, .tryEmplace 4 41, .erase 4, .find 5] :=
    h ▸ List.mem_append_right _ List.mem_cons_self
  simp only [List.mem_cons, List.not_mem_nil, or_false] at hmem
  rcases hmem with rfl | rfl | rfl | rfl | rfl <;> trivial

/-- Both of the entries of a shard are erased where one is to be. -/
theorem not_refines :
    ¬∀ (n : ℕ) (order : IterationOrder (ℕ × ℕ)) (hash : ℕ → ℕ) (ops : List (MapOp ℕ ℕ)), 0 < n →
      ∀ pre op post, ops = pre ++ op :: post →
        PlainMap.Step (run (empty n) order hash pre).toMap op
          ((run (empty n) order hash pre).step order hash op).1
          ((run (empty n) order hash pre).step order hash op).2.toMap := by
  intro h
  have hstep := h 1 (insertionOrder _) id
    [.tryEmplace 4 40, .tryEmplace 5 50, .eraseOne fun _ => true] Nat.one_pos
    [.tryEmplace 4 40, .tryEmplace 5 50] (.eraseOne fun _ => true) [] rfl
  have hmeets := (step_eraseOne_iff _).mp hstep
  exact absurd hmeets (by
    rintro (htwo | ⟨hnone, -⟩)
    · exact absurd htwo (by decide)
    · exact absurd hnone (by decide))

end Run

end MapSharded

end Yalantinglibs.Util
