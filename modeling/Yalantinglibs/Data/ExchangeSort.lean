import Mathlib.Data.List.Rotate
import Mathlib.Order.Lattice
import Mathlib.Tactic.Common

/-!
# Sorting by exchange

The sort that compares each place with all places behind it and exchanges two elements that are in
the wrong order. A round carries the smallest element of the rest to its front. The sort is not
stable: an element that is overtaken by a smaller one goes to where that one was, behind the
elements with its own key that stand in between. So the elements of one key are turned by one place
for each smaller element.

## Main definitions

* `exchange`, `exchangeLoops` — the loops over two places of a list
* `sink`, `exchangeSort` — a round, and the rounds one after the other
* `arrange` — the elements of one key, turned for each smaller element

## Main results

* `exchangeLoops_eq` — the loops are the rounds
* `exchangeSort_perm`, `pairwise_exchangeSort` — the result is in order
* `filter_exchangeSort` — the order of the elements of one key
-/

set_option autoImplicit false

namespace Yalantinglibs

namespace ExchangeSort

variable {α κ : Type*} [LinearOrder κ] (key : α → κ)

/-! ### The loops and the rounds -/

/-- The body of the loops: the elements at two places change them if they are in the wrong order. -/
def exchange (l : List α) (i j : ℕ) : List α :=
  match l[i]?, l[j]? with
  | some a, some b => if key b < key a then (l.set i b).set j a else l
  | _, _ => l

/-- The inner loop, over the places behind `i`. -/
def exchangeLoop (l : List α) (i : ℕ) : List α :=
  (List.range' (i + 1) (l.length - (i + 1))).foldl (fun l j => exchange key l i j) l

/-- The outer loop. -/
def exchangeLoops (l : List α) : List α := (List.range l.length).foldl (exchangeLoop key) l

/-- A round, with the element that is carried: the one that comes to the front, and the others. -/
def sink : α → List α → α × List α
  | x, [] => (x, [])
  | x, y :: l =>
    if key y < key x then ((sink y l).1, x :: (sink y l).2) else ((sink x l).1, y :: (sink x l).2)

variable {key}

theorem sink_cons_of_lt {x y : α} (h : key y < key x) (l : List α) :
    sink key x (y :: l) = ((sink key y l).1, x :: (sink key y l).2) := by
  rw [sink, if_pos h]

theorem sink_cons_of_not_lt {x y : α} (h : ¬ key y < key x) (l : List α) :
    sink key x (y :: l) = ((sink key x l).1, y :: (sink key x l).2) := by
  rw [sink, if_neg h]

theorem length_sink (x : α) (l : List α) : (sink key x l).2.length = l.length := by
  induction l generalizing x with
  | nil => rfl
  | cons y l ih =>
    rw [sink]
    split_ifs
    · rw [List.length_cons, List.length_cons, ih]
    · rw [List.length_cons, List.length_cons, ih]

variable (key) in
/-- The rounds, each over what the ones before it leave. -/
def exchangeSort : List α → List α
  | [] => []
  | x :: l => (sink key x l).1 :: exchangeSort (sink key x l).2
termination_by l => l.length
decreasing_by
  rw [length_sink, List.length_cons]
  exact Nat.lt_succ_self _

theorem exchange_append (pre mid post : List α) (x y : α) :
    exchange key (pre ++ x :: (mid ++ y :: post)) pre.length (pre.length + 1 + mid.length) =
      if key y < key x then pre ++ y :: (mid ++ x :: post) else pre ++ x :: (mid ++ y :: post) := by
  have hx : (pre ++ x :: (mid ++ y :: post))[pre.length]? = some x := by simp
  have hy : (pre ++ x :: (mid ++ y :: post))[pre.length + 1 + mid.length]? = some y := by
    rw [List.getElem?_append_right (by omega), Nat.add_assoc, Nat.add_sub_cancel_left, Nat.add_comm,
      List.getElem?_cons_succ, List.getElem?_append_right (Nat.le_refl _), Nat.sub_self]
    rfl
  rw [exchange, hx, hy]
  dsimp only
  split_ifs with hlt
  · rw [List.set_append_right _ _ (Nat.le_refl _), Nat.sub_self, List.set_cons_zero,
      List.set_append_right _ _ (by omega), Nat.add_assoc, Nat.add_sub_cancel_left, Nat.add_comm,
      List.set_cons_succ, List.set_append_right _ _ (Nat.le_refl _), Nat.sub_self,
      List.set_cons_zero]
  · rfl

/-- The inner loop is a round. Behind the carried element are the places that it has passed. -/
theorem foldl_exchange (pre mid l : List α) (x : α) :
    (List.range' (pre.length + 1 + mid.length) l.length).foldl
        (fun l j => exchange key l pre.length j) (pre ++ x :: (mid ++ l)) =
      pre ++ (sink key x l).1 :: (mid ++ (sink key x l).2) := by
  induction l generalizing mid x with
  | nil => rfl
  | cons y l ih =>
    have hnext : pre.length + 1 + mid.length + 1 = pre.length + 1 + (mid ++ [y]).length := by
      rw [List.length_append, List.length_singleton, Nat.add_assoc _ mid.length]
    rw [List.length_cons, List.range'_succ, List.foldl_cons, exchange_append, hnext]
    by_cases hlt : key y < key x
    · have hround := ih (mid ++ [x]) y
      rw [List.append_assoc, List.append_assoc, List.singleton_append, List.singleton_append,
        List.length_append, List.length_singleton] at hround
      rw [if_pos hlt, sink_cons_of_lt hlt, List.length_append, List.length_singleton]
      exact hround
    · have hround := ih (mid ++ [y]) x
      rw [List.append_assoc, List.append_assoc, List.singleton_append,
        List.singleton_append] at hround
      rw [if_neg hlt, sink_cons_of_not_lt hlt]
      exact hround

theorem exchangeLoop_append (pre l : List α) (x : α) :
    exchangeLoop key (pre ++ x :: l) pre.length = pre ++ (sink key x l).1 :: (sink key x l).2 := by
  have hlen : (pre ++ x :: l).length - (pre.length + 1) = l.length := by
    rw [List.length_append, List.length_cons]
    omega
  rw [exchangeLoop, hlen]
  exact foldl_exchange pre [] l x

theorem foldl_exchangeLoop (pre l : List α) :
    (List.range' pre.length l.length).foldl (exchangeLoop key) (pre ++ l) =
      pre ++ exchangeSort key l := by
  induction hlen : l.length generalizing pre l with
  | zero =>
    obtain rfl := List.eq_nil_of_length_eq_zero hlen
    rw [exchangeSort]
    rfl
  | succ n ih =>
    obtain ⟨x, l, rfl⟩ := List.exists_cons_of_length_eq_add_one hlen
    rw [List.length_cons, Nat.succ_inj] at hlen
    have hrest := ih (pre ++ [(sink key x l).1]) (sink key x l).2 (by rw [length_sink, hlen])
    rw [List.append_assoc, List.append_assoc, List.singleton_append, List.singleton_append,
      List.length_append, List.length_singleton] at hrest
    rw [List.range'_succ, List.foldl_cons, exchangeLoop_append, exchangeSort]
    exact hrest

/-- The loops are the rounds. -/
theorem exchangeLoops_eq (l : List α) : exchangeLoops key l = exchangeSort key l := by
  rw [exchangeLoops, List.range_eq_range']
  exact foldl_exchangeLoop [] l

/-! ### The result is in order -/

theorem sink_perm (x : α) (l : List α) :
    ((sink key x l).1 :: (sink key x l).2).Perm (x :: l) := by
  induction l generalizing x with
  | nil => exact List.Perm.refl _
  | cons y l ih =>
    by_cases hlt : key y < key x
    · rw [sink_cons_of_lt hlt]
      exact (List.Perm.swap x _ _).trans ((ih y).cons x)
    · rw [sink_cons_of_not_lt hlt]
      exact ((List.Perm.swap y _ _).trans ((ih x).cons y)).trans (List.Perm.swap x y l)

/-- A round carries the smallest element to the front. -/
theorem key_sink_le (x : α) (l : List α) : ∀ a ∈ x :: l, key (sink key x l).1 ≤ key a := by
  induction l generalizing x with
  | nil =>
    intro a ha
    rw [List.mem_singleton.mp ha]
    exact le_refl _
  | cons y l ih =>
    by_cases hlt : key y < key x
    · rw [sink_cons_of_lt hlt]
      intro a ha
      obtain rfl | ha := List.mem_cons.mp ha
      · exact (ih y y List.mem_cons_self).trans hlt.le
      · exact ih y a ha
    · rw [sink_cons_of_not_lt hlt]
      intro a ha
      obtain rfl | ha := List.mem_cons.mp ha
      · exact ih a a List.mem_cons_self
      · obtain rfl | ha := List.mem_cons.mp ha
        · exact (ih x x List.mem_cons_self).trans (le_of_not_gt hlt)
        · exact ih x a (List.mem_cons_of_mem x ha)

theorem exchangeSort_perm (l : List α) : (exchangeSort key l).Perm l := by
  induction l using exchangeSort.induct key with
  | case1 => rw [exchangeSort]
  | case2 x l ih =>
    rw [exchangeSort]
    exact (ih.cons _).trans (sink_perm x l)

theorem pairwise_exchangeSort (l : List α) :
    (exchangeSort key l).Pairwise fun a b => key a ≤ key b := by
  induction l using exchangeSort.induct key with
  | case1 =>
    rw [exchangeSort]
    exact List.Pairwise.nil
  | case2 x l ih =>
    rw [exchangeSort, List.pairwise_cons]
    refine ⟨fun a ha => ?_, ih⟩
    have hmem : a ∈ x :: l := (sink_perm x l).mem_iff.mp
      (List.mem_cons_of_mem _ ((exchangeSort_perm _).mem_iff.mp ha))
    exact key_sink_le x l a hmem

/-! ### The elements of one key -/

variable (key) in
/-- The elements of key `c`, behind those of `queue`: another one comes to the end, and for a
smaller element the first one does. -/
def arrange (c : κ) : List α → List α → List α
  | queue, [] => queue
  | queue, a :: l =>
    if key a = c then arrange c (queue ++ [a]) l
    else if key a < c then arrange c (queue.rotate 1) l
    else arrange c queue l

variable {c : κ} {a : α}

theorem arrange_cons_of_eq (h : key a = c) (queue l : List α) :
    arrange key c queue (a :: l) = arrange key c (queue ++ [a]) l := by
  rw [arrange, if_pos h]

theorem arrange_cons_of_lt (h : key a < c) (queue l : List α) :
    arrange key c queue (a :: l) = arrange key c (queue.rotate 1) l := by
  rw [arrange, if_neg h.ne, if_pos h]

theorem arrange_cons_of_gt (h : c < key a) (queue l : List α) :
    arrange key c queue (a :: l) = arrange key c queue l := by
  rw [arrange, if_neg h.ne', if_neg h.not_gt]

/-- A smaller element that is carried leaves the order of the others alone. -/
theorem arrange_sink_of_lt {x : α} (h : key x < c) (queue l : List α) :
    key (sink key x l).1 < c ∧ arrange key c queue (sink key x l).2 = arrange key c queue l := by
  induction l generalizing x queue with
  | nil => exact ⟨h, rfl⟩
  | cons y l ih =>
    by_cases hlt : key y < key x
    · have hy := hlt.trans h
      rw [sink_cons_of_lt hlt]
      refine ⟨(ih hy queue).1, ?_⟩
      rw [arrange_cons_of_lt h, arrange_cons_of_lt hy, (ih hy _).2]
    · rw [sink_cons_of_not_lt hlt]
      refine ⟨(ih h queue).1, ?_⟩
      rw [arrange, arrange, (ih h _).2, (ih h _).2, (ih h _).2]

/-- An element of the key that is carried is the first one, until a smaller one takes over and the
element goes to its place. -/
theorem arrange_sink_of_eq {x : α} (h : key x = c) (queue l : List α) :
    arrange key c (x :: queue) l =
      if key (sink key x l).1 = c then
        (sink key x l).1 :: arrange key c queue (sink key x l).2
      else arrange key c queue (sink key x l).2 := by
  induction l generalizing x queue with
  | nil => rw [sink, if_pos h]; rfl
  | cons y l ih =>
    by_cases hlt : key y < key x
    · have hy : key y < c := h ▸ hlt
      obtain ⟨hfront, hsame⟩ := arrange_sink_of_lt hy (queue ++ [x]) l
      rw [sink_cons_of_lt hlt, if_neg hfront.ne, arrange_cons_of_lt hy, arrange_cons_of_eq h, hsame,
        List.rotate_cons_succ, List.rotate_zero]
    · rw [sink_cons_of_not_lt hlt]
      by_cases hy : key y = c
      · rw [arrange_cons_of_eq hy, arrange_cons_of_eq hy, List.cons_append]
        exact ih h (queue ++ [y])
      · have hgt : c < key y := lt_of_le_of_ne (h ▸ le_of_not_gt hlt) (Ne.symm hy)
        rw [arrange_cons_of_gt hgt, arrange_cons_of_gt hgt]
        exact ih h queue

/-- A larger element that is carried gives way to the first element that is not. -/
theorem arrange_sink_of_gt {x : α} (h : c < key x) (l : List α) :
    arrange key c [] l =
      if key (sink key x l).1 = c then (sink key x l).1 :: arrange key c [] (sink key x l).2
      else arrange key c [] (sink key x l).2 := by
  induction l generalizing x with
  | nil => rw [sink, if_neg h.ne']
  | cons y l ih =>
    obtain hy | hy | hy := lt_trichotomy (key y) c
    · have hlt := hy.trans h
      obtain ⟨hfront, hsame⟩ := arrange_sink_of_lt hy [] l
      rw [sink_cons_of_lt hlt, if_neg hfront.ne, arrange_cons_of_lt hy, arrange_cons_of_gt h, hsame,
        List.rotate_nil]
    · have hlt : key y < key x := hy ▸ h
      rw [sink_cons_of_lt hlt, arrange_cons_of_eq hy, List.nil_append, arrange_cons_of_gt h]
      exact arrange_sink_of_eq hy [] l
    · by_cases hlt : key y < key x
      · rw [sink_cons_of_lt hlt, arrange_cons_of_gt hy, arrange_cons_of_gt h]
        exact ih hy
      · rw [sink_cons_of_not_lt hlt, arrange_cons_of_gt hy, arrange_cons_of_gt hy]
        exact ih h

theorem arrange_cons_nil (x : α) (l : List α) :
    arrange key c [] (x :: l) =
      if key (sink key x l).1 = c then (sink key x l).1 :: arrange key c [] (sink key x l).2
      else arrange key c [] (sink key x l).2 := by
  obtain hx | hx | hx := lt_trichotomy (key x) c
  · obtain ⟨hfront, hsame⟩ := arrange_sink_of_lt hx [] l
    rw [arrange_cons_of_lt hx, List.rotate_nil, if_neg hfront.ne, hsame]
  · rw [arrange_cons_of_eq hx]
    exact arrange_sink_of_eq hx [] l
  · rw [arrange_cons_of_gt hx]
    exact arrange_sink_of_gt hx l

/-- The order in which the sort leaves the elements of one key. -/
theorem filter_exchangeSort (c : κ) (l : List α) :
    (exchangeSort key l).filter (fun a => key a = c) = arrange key c [] l := by
  induction l using exchangeSort.induct key with
  | case1 => rw [exchangeSort]; rfl
  | case2 x l ih =>
    rw [exchangeSort, List.filter_cons, ih, arrange_cons_nil]
    simp only [decide_eq_true_eq]

end ExchangeSort

end Yalantinglibs
