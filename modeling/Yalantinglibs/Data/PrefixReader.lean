import Mathlib.Data.List.Basic
import Mathlib.Tactic.Common

/-!
# Readers of a prefix

A reader takes elements off the front of a list and returns a value, or stops with an error. Readers
are put together with the operations of the state monad.

Most readers look at nothing behind what they take: what a *local* reader does with a text it does
with every longer one too. A reader that looks one element ahead is local as well, as long as it
does not succeed at the end of the text.

## Main definitions

* `Reader` — a reader
* `Local` — what follows does not matter
* `Consumes` — a reader takes just this text off the front of whatever it stands in
* `Contained` — only what is taken matters, in whatever it stands
* `takeUntil`, `skipOne` — the elements before one that ends them

## Main results

* `Local.bind` — a local reader after the other
* `Contained.bind` — a contained reader after the other
* `Local.consumes` — a local reader that takes all of a text takes it off the front of any other
* `local_takeUntil`, `takeUntil_append`
-/

set_option autoImplicit false

namespace Yalantinglibs

/-- A reader of elements of `σ`. -/
abbrev Reader (ε σ α : Type) := StateT (List σ) (Except ε) α

namespace Reader

variable {ε σ α β : Type} {r : Reader ε σ α} {f : α → Reader ε σ β} {buf mid rest text : List σ}
  {a : α} {b : β}

/-! ### Running a reader -/

theorem pure_apply (a : α) (buf : List σ) : (pure a : Reader ε σ α) buf = .ok (a, buf) := rfl

theorem bind_of_ok (h : r buf = .ok (a, mid)) : (r >>= f) buf = f a mid := by
  simp only [bind, StateT.bind, h, Except.bind]

theorem bind_of_error {e : ε} (h : r buf = .error e) : (r >>= f) buf = .error e := by
  simp only [bind, StateT.bind, h, Except.bind]

theorem bind_eq_ok_iff :
    (r >>= f) buf = .ok (b, rest) ↔ ∃ a mid, r buf = .ok (a, mid) ∧ f a mid = .ok (b, rest) := by
  constructor
  · intro h
    cases hread : r buf with
    | error e =>
      rw [bind_of_error hread] at h
      cases h
    | ok read =>
      rw [bind_of_ok (show r buf = .ok (read.1, read.2) from hread)] at h
      exact ⟨read.1, read.2, rfl, h⟩
  · rintro ⟨a, mid, hread, h⟩
    rwa [bind_of_ok hread]

theorem map_eq_ok_iff {g : α → β} :
    (g <$> r) buf = .ok (b, rest) ↔ ∃ a, r buf = .ok (a, rest) ∧ g a = b := by
  rw [← bind_pure_comp, bind_eq_ok_iff]
  constructor
  · rintro ⟨a, mid, hread, h⟩
    cases h
    exact ⟨a, hread, rfl⟩
  · rintro ⟨a, hread, rfl⟩
    exact ⟨a, rest, hread, rfl⟩

theorem map_apply (g : α → β) : (g <$> r) buf =
    match r buf with
    | .ok (a, rest) => .ok (g a, rest)
    | .error e => .error e := by
  cases hread : r buf with
  | error e =>
    rw [← bind_pure_comp]
    exact bind_of_error hread
  | ok read => exact map_eq_ok_iff.mpr ⟨read.1, hread, rfl⟩

/-- Stop with an error. -/
def stop (e : ε) : Reader ε σ α := fun _ => .error e

/-! ### What follows does not matter -/

/-- What the reader does with a text it does with every longer one too. -/
def Local (r : Reader ε σ α) : Prop :=
  ∀ buf a rest, r buf = .ok (a, rest) → ∀ more, r (buf ++ more) = .ok (a, rest ++ more)

theorem local_pure (a : α) : Local (pure a : Reader ε σ α) := by
  intro buf b rest h more
  cases h
  rfl

theorem local_stop (e : ε) : Local (stop e : Reader ε σ α) := by
  intro buf b rest h more
  cases h

theorem Local.bind (hr : Local r) (hf : ∀ a, Local (f a)) : Local (r >>= f) := by
  intro buf b rest h more
  obtain ⟨a, mid, hread, h⟩ := bind_eq_ok_iff.mp h
  apply bind_eq_ok_iff.mpr
  exact ⟨a, mid ++ more, hr buf a mid hread more, hf a mid b rest h more⟩

theorem Local.ite {c : Prop} [Decidable c] {r' : Reader ε σ α} (hr : Local r) (hr' : Local r') :
    Local (if c then r else r') := by
  split
  · exact hr
  · exact hr'

/-! ### What stands behind does not matter either way -/

/-- What is left is an end of what was there. -/
def Advances (r : Reader ε σ α) : Prop := ∀ buf a rest, r buf = .ok (a, rest) → rest <:+ buf

/-- What the reader does in a text it does where the text ends behind what it takes. -/
def Cuts (r : Reader ε σ α) : Prop :=
  ∀ buf a rest more, r (buf ++ more) = .ok (a, rest ++ more) → r buf = .ok (a, rest)

theorem advances_pure (a : α) : Advances (pure a : Reader ε σ α) := by
  intro buf b rest h
  cases h
  exact List.suffix_rfl

theorem cuts_pure (a : α) : Cuts (pure a : Reader ε σ α) := by
  intro buf b rest more h
  rw [pure_apply] at h ⊢
  obtain ⟨ha, hrest⟩ := Prod.mk.inj (Except.ok.inj h)
  rw [ha, List.append_cancel_right hrest]

theorem Advances.bind (hr : Advances r) (hf : ∀ a, Advances (f a)) : Advances (r >>= f) := by
  intro buf b rest h
  obtain ⟨a, mid, hread, h⟩ := bind_eq_ok_iff.mp h
  exact (hf a mid b rest h).trans (hr buf a mid hread)

/-- The second reader tells where the first one has to end. -/
theorem Cuts.bind (hr : Cuts r) (hf : ∀ a, Cuts (f a)) (hadv : ∀ a, Advances (f a)) :
    Cuts (r >>= f) := by
  intro buf b rest more h
  obtain ⟨a, mid, hread, h⟩ := bind_eq_ok_iff.mp h
  obtain ⟨front, rfl⟩ := hadv a mid b _ h
  rw [← List.append_assoc] at hread h
  apply bind_eq_ok_iff.mpr
  exact ⟨a, front ++ rest, hr buf a _ more hread, hf a _ b rest more h⟩

/-- Only what is taken matters. -/
structure Contained (r : Reader ε σ α) : Prop where
  advances : Advances r
  isLocal : Local r
  cuts : Cuts r

theorem contained_pure (a : α) : Contained (pure a : Reader ε σ α) :=
  ⟨advances_pure a, local_pure a, cuts_pure a⟩

theorem Contained.bind (hr : Contained r) (hf : ∀ a, Contained (f a)) : Contained (r >>= f) :=
  ⟨hr.advances.bind fun a => (hf a).advances, hr.isLocal.bind fun a => (hf a).isLocal,
    hr.cuts.bind (fun a => (hf a).cuts) fun a => (hf a).advances⟩

theorem Contained.map (hr : Contained r) (g : α → β) : Contained (g <$> r) := by
  rw [← bind_pure_comp]
  exact hr.bind fun a => contained_pure (g a)

/-! ### Texts that are taken -/

/-- The reader takes just this text off the front of whatever it stands in. -/
def Consumes (r : Reader ε σ α) (text : List σ) (a : α) : Prop :=
  ∀ rest, r (text ++ rest) = .ok (a, rest)

/-- A local reader that takes all of a text takes it off the front of any other. -/
theorem Local.consumes (hr : Local r) (h : r text = .ok (a, [])) : Consumes r text a :=
  hr text a [] h

/-! ### Elements up to one that ends them -/

section Until

variable (ended failed : ε) (ends fails : σ → Bool)

/-- The elements before the first one that ends them, which stays. -/
def takeUntil : Reader ε σ (List σ)
  | [] => .error ended
  | c :: rest =>
    if ends c then .ok ([], c :: rest)
    else if fails c then .error failed
    else
      match takeUntil rest with
      | .error e => .error e
      | .ok (taken, rest) => .ok (c :: taken, rest)

/-- Take one element. -/
def skipOne : Reader ε σ Unit
  | [] => .error ended
  | _ :: rest => .ok ((), rest)

theorem local_takeUntil : Local (takeUntil ended failed ends fails) := by
  intro buf
  induction buf with
  | nil =>
    intro taken rest h more
    cases h
  | cons c buf ih =>
    intro taken rest h more
    rw [takeUntil] at h
    rw [List.cons_append, takeUntil]
    split_ifs at h ⊢ with hends hfails
    · cases h
      rfl
    · cases hread : takeUntil ended failed ends fails buf with
      | error e =>
        rw [hread] at h
        cases h
      | ok read =>
        rw [hread] at h
        rw [ih _ _ hread]
        cases h
        rfl

variable {ended failed ends fails}

theorem takeUntil_append {taken : List σ} {c : σ}
    (h : ∀ d ∈ taken, ends d = false ∧ fails d = false) (hc : ends c = true) (rest : List σ) :
    takeUntil ended failed ends fails (taken ++ c :: rest) = .ok (taken, c :: rest) := by
  induction taken with
  | nil =>
    rw [List.nil_append, takeUntil, if_pos hc]
  | cons d taken ih =>
    obtain ⟨hends, hfails⟩ := h d List.mem_cons_self
    have htaken := ih fun e he => h e (List.mem_cons_of_mem d he)
    rw [List.cons_append, takeUntil, if_neg (by simp [hends]), if_neg (by simp [hfails]), htaken]

/-- The elements in front of one that ends them are taken if none of them is wrong. -/
theorem takeUntil_append_cons {taken : List σ} {c : σ} (h : ∀ d ∈ taken, ends d = false)
    (hc : ends c = true) (rest : List σ) :
    takeUntil ended failed ends fails (taken ++ c :: rest) =
      if taken.any fails then .error failed else .ok (taken, c :: rest) := by
  induction taken with
  | nil => rw [List.nil_append, takeUntil, if_pos hc, List.any_nil, if_neg Bool.false_ne_true]
  | cons d taken ih =>
    have hd : ¬ ends d = true := by simp [h d List.mem_cons_self]
    rw [List.cons_append, takeUntil, if_neg hd, ih fun e he => h e (List.mem_cons_of_mem d he),
      List.any_cons]
    cases fails d <;> cases taken.any fails <;> rfl

/-- What was taken has nothing in it that ends it. -/
theorem mem_of_takeUntil {taken : List σ}
    (h : takeUntil ended failed ends fails buf = .ok (taken, rest)) :
    ∀ d ∈ taken, ends d = false ∧ fails d = false := by
  induction buf generalizing taken rest with
  | nil => cases h
  | cons c buf ih =>
    rw [takeUntil] at h
    split_ifs at h with hends hfails
    · cases h
      simp
    · cases hread : takeUntil ended failed ends fails buf with
      | error e =>
        rw [hread] at h
        cases h
      | ok read =>
        rw [hread] at h
        cases h
        intro d hd
        obtain rfl | hd := List.mem_cons.mp hd
        · exact ⟨by simpa using hends, by simpa using hfails⟩
        · exact ih hread d hd

end Until

end Reader

end Yalantinglibs
