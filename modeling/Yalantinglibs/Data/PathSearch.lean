import Mathlib.Data.List.Basic
import Mathlib.Data.List.Nodup
import Mathlib.Logic.Relation

/-!
# Depth-first search along a path

A search of a graph that carries the path it came by and turns back when it meets a node of
that path. It keeps no record of the nodes met on other branches, so it may visit a node
many times, but on a finite graph it ends and misses nothing that can be reached: this is
what a recursion over a cyclic type definition does when it stops at its own parents.

## Main definitions

* `visit` — the nodes met, in the order of the search
* `Reaches` — reachability in the graph

## Main results

* `mem_visit_iff` — with fuel for every node, the search meets exactly the reachable nodes
-/

set_option autoImplicit false

namespace Yalantinglibs.PathSearch

variable {α : Type*} [DecidableEq α] {succ : α → List α} {a b c : α} {path : List α}

/-- The nodes met from `a` in depth-first order, never entering a node of `path` again. -/
def visit (succ : α → List α) : ℕ → List α → α → List α
  | 0, _, _ => []
  | fuel + 1, path, a =>
    if a ∈ path then [] else a :: (succ a).flatMap (visit succ fuel (a :: path))

/-- `b` can be reached from `a`. -/
def Reaches (succ : α → List α) (a b : α) : Prop :=
  Relation.ReflTransGen (fun x y => y ∈ succ x) a b

omit [DecidableEq α] in
theorem Reaches.refl (a : α) : Reaches succ a a := Relation.ReflTransGen.refl

omit [DecidableEq α] in
theorem Reaches.head (h : b ∈ succ a) (hb : Reaches succ b c) : Reaches succ a c :=
  Relation.ReflTransGen.head h hb

theorem reaches_of_mem_visit {fuel : ℕ} (h : b ∈ visit succ fuel path a) :
    Reaches succ a b := by
  induction fuel generalizing path a with
  | zero => simp [visit] at h
  | succ fuel ih =>
    rw [visit] at h
    split at h
    · simp at h
    · rcases List.mem_cons.mp h with rfl | h
      · exact .refl b
      · obtain ⟨c, hc, hb⟩ := List.mem_flatMap.mp h
        exact .head hc (ih hb)

/-- A walk from `a` to `b` whose later nodes are all off `path`. -/
private def Avoids (succ : α → List α) (path : List α) (a b : α) : Prop :=
  Relation.ReflTransGen (fun x y => y ∈ succ x ∧ y ∉ path) a b

omit [DecidableEq α] in
/-- A walk either ends at `a`, or its part behind the last visit of `a` starts at a
successor of `a` and avoids `a` as well. -/
private theorem Avoids.leave {x : α} (h : Avoids succ path x b) (a : α) :
    a = b ∨ (∃ c ∈ succ a, c ∉ a :: path ∧ Avoids succ (a :: path) c b) ∨
      Avoids succ (a :: path) x b := by
  induction h using Relation.ReflTransGen.head_induction_on with
  | refl => exact .inr (.inr .refl)
  | @head x y hstep _ ih =>
    rcases ih with rfl | ih | ih
    · exact .inl rfl
    · exact .inr (.inl ih)
    · by_cases hy : y = a
      · subst hy
        rcases Relation.ReflTransGen.cases_head ih with rfl | ⟨z, hz, hzb⟩
        · exact .inl rfl
        · exact .inr (.inl ⟨z, hz.1, hz.2, hzb⟩)
      · exact .inr (.inr (.head ⟨hstep.1, by simp [hy, hstep.2]⟩ ih))

omit [DecidableEq α] in
/-- A walk that has not ended can be taken up at a successor and never come back. -/
private theorem Avoids.step (h : Avoids succ path a b) :
    a = b ∨ ∃ c ∈ succ a, c ∉ a :: path ∧ Avoids succ (a :: path) c b := by
  rcases h.leave a with rfl | hstep | hself
  · exact .inl rfl
  · exact .inr hstep
  · rcases Relation.ReflTransGen.cases_head hself with rfl | ⟨c, hc, hcb⟩
    · exact .inl rfl
    · exact .inr ⟨c, hc.1, hc.2, hcb⟩

/-- Entering a node leaves fewer nodes off the path. -/
private theorem length_off_path_lt {nodes : List α} (ha : a ∈ nodes) (hpath : a ∉ path) :
    (nodes.filter (· ∉ a :: path)).length < (nodes.filter (· ∉ path)).length := by
  have hsub : nodes.filter (· ∉ a :: path) = (nodes.filter (· ∉ path)).filter (· ≠ a) := by
    rw [List.filter_filter]
    congr 1
    funext x
    simp [not_or]
  rw [hsub, List.length_filter_lt_length_iff_exists]
  exact ⟨a, by simp [ha, hpath], by simp⟩

private theorem mem_visit_of_avoids {nodes : List α}
    (hclosed : ∀ x ∈ nodes, succ x ⊆ nodes) (fuel : ℕ) (path : List α) (a : α)
    (ha : a ∈ nodes) (hpath : a ∉ path) (h : Avoids succ path a b)
    (hfuel : (nodes.filter (· ∉ path)).length < fuel) : b ∈ visit succ fuel path a := by
  induction fuel generalizing path a with
  | zero => omega
  | succ fuel ih =>
    rw [visit, if_neg hpath]
    rcases h.step with rfl | ⟨c, hc, hca, hcb⟩
    · exact List.mem_cons_self
    · have hlt := length_off_path_lt ha hpath
      exact List.mem_cons_of_mem _
        (List.mem_flatMap.mpr ⟨c, hc, ih (a :: path) c (hclosed a ha hc) hca hcb (by omega)⟩)

/-- On a finite graph the search meets exactly what can be reached. -/
theorem mem_visit_iff (nodes : List α) (hclosed : ∀ x ∈ nodes, succ x ⊆ nodes) {fuel : ℕ}
    (hfuel : nodes.length < fuel) (ha : a ∈ nodes) :
    b ∈ visit succ fuel [] a ↔ Reaches succ a b := by
  refine ⟨reaches_of_mem_visit, fun h => ?_⟩
  have hwalk : Avoids succ [] a b :=
    Relation.ReflTransGen.mono (fun _ _ hxy => ⟨hxy, List.not_mem_nil⟩) a b h
  have hle := List.length_filter_le (fun x => decide (x ∉ ([] : List α))) nodes
  exact mem_visit_of_avoids hclosed fuel [] a ha List.not_mem_nil hwalk (by omega)

end Yalantinglibs.PathSearch
