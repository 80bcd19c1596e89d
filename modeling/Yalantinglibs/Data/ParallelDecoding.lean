import Yalantinglibs.Data.Decoding

/-!
# Two decoders side by side

A decoder and another that is to consume what the first does, for example one that skips. Their
objects are related in some way, and are to be related behind them; and they end in the same way in
the same state, though the states of failures may differ where nothing looks at them. Nothing is
said where the first was not given depth enough.

The objects that are decoded one after the other are compared by keys, which the rest of an object
does not affect.

## Main definitions

* `Outcome.Agree` — two outcomes that agree
* `memberKeys` — the keys of a list of objects
* `keepsFit` — all objects but the last are such that the next can be decoded into them

## Main results

* `Agree.andThen`, `Agree.dropCode` — the rules for what follows
* `each_agree`, `again_agree`, `appendNew_agree_again` — the rules for the loops
* `each_agree_self`, `appendNew_agree_self` — the rules where the first may give up
-/

set_option autoImplicit false

namespace Yalantinglibs.Decoding

namespace Outcome

variable {ε σ α β γ δ : Type*}

/-- The same end, with related objects; the states of failures are related by `S`. -/
inductive Agree (S : σ → σ → Prop) (R : α → β → Prop) : Outcome ε σ α → Outcome ε σ β → Prop
  | done {x : α} {y : β} {s : σ} (h : R x y) : Agree S R (.done x s) (.done y s)
  | fail {e : ε} {x : α} {y : β} {s s' : σ} (h : R x y) (hs : S s s') :
      Agree S R (.fail e x s) (.fail e y s')
  | throws : Agree S R .throws .throws
  | tooDeep {o' : Outcome ε σ β} : Agree S R .tooDeep o'

variable {S : σ → σ → Prop} {R : α → β → Prop} {Q : γ → δ → Prop} {o : Outcome ε σ α}
  {o' : Outcome ε σ β}

theorem Agree.map (h : o.Agree S R o') {f : α → γ} {g : β → δ}
    (hR : ∀ x y, R x y → Q (f x) (g y)) : (o.map f).Agree S Q (o'.map g) := by
  cases h with
  | done h => exact .done (hR _ _ h)
  | fail h hs => exact .fail (hR _ _ h) hs
  | throws => exact .throws
  | tooDeep => exact .tooDeep

theorem Agree.map_left (h : o.Agree S R o') {f : α → γ} {Q : γ → β → Prop}
    (hR : ∀ x y, R x y → Q (f x) y) : (o.map f).Agree S Q o' := by
  cases h with
  | done h => exact .done (hR _ _ h)
  | fail h hs => exact .fail (hR _ _ h) hs
  | throws => exact .throws
  | tooDeep => exact .tooDeep

theorem Agree.andThen (h : o.Agree S R o') {p : α → γ} {q : β → δ}
    {n : α → σ → Outcome ε σ γ} {m : β → σ → Outcome ε σ δ} (hp : ∀ x y, R x y → Q (p x) (q y))
    (hn : ∀ x y s, R x y → o = .done x s → o' = .done y s → (n x s).Agree S Q (m y s)) :
    (o.andThen p n).Agree S Q (o'.andThen q m) := by
  cases h with
  | done h => exact hn _ _ _ h rfl rfl
  | fail h hs => exact .fail (hp _ _ h) hs
  | throws => exact .throws
  | tooDeep => exact .tooDeep

/-- A failure is passed over only where the state is the same. -/
theorem Agree.dropCode {S' : σ → σ → Prop} (h : o.Agree (· = ·) R o') :
    o.dropCode.Agree S' R o'.dropCode := by
  cases h with
  | done h => exact .done h
  | fail h hs =>
    obtain rfl := hs
    exact .done h
  | throws => exact .throws
  | tooDeep => exact .tooDeep

theorem Agree.mono {S' : σ → σ → Prop} {R' : α → β → Prop} (h : o.Agree S R o')
    (hS : ∀ s s', S s s' → S' s s') (hR : ∀ x y, R x y → R' x y) : o.Agree S' R' o' := by
  cases h with
  | done h => exact .done (hR _ _ h)
  | fail h hs => exact .fail (hR _ _ h) (hS _ _ hs)
  | throws => exact .throws
  | tooDeep => exact .tooDeep

theorem Agree.refl {R : α → α → Prop} (o : Outcome ε σ α) (hS : ∀ s, S s s) (hR : ∀ x, R x x) :
    o.Agree S R o := by
  cases o with
  | done x s => exact .done (hR x)
  | fail e x s => exact .fail (hR x) (hS s)
  | throws => exact .throws
  | tooDeep => exact .tooDeep

/-- Decoders that take as many items; where there are fewer, their states behind may differ. -/
theorem Takes.agree {ι : Type*} {e : ε} {n : ℕ} {s : List ι} {S : List ι → List ι → Prop}
    {o : Outcome ε (List ι) α} {o' : Outcome ε (List ι) β} (h : o.Takes e n s) (h' : o'.Takes e n s)
    (hS : s.length < n → ∀ s s', S s s') : o.Agree S (fun _ _ => True) o' := by
  rcases h with ⟨hn, x, rfl⟩ | ⟨hn, x, s₁, rfl⟩
  · obtain ⟨y, rfl⟩ := h'.exists_done hn
    exact .done trivial
  · rcases h' with ⟨hn', -⟩ | ⟨-, y, s₂, rfl⟩
    · exact absurd hn (Nat.not_lt.mpr hn')
    · exact .fail trivial (hS hn s₁ s₂)

/-- The same verdict, and the same state behind a success. -/
theorem Agree.done_iff (h : o.Agree S R o') (ho : o ≠ .tooDeep) (s : σ) :
    (∃ x, o = .done x s) ↔ ∃ y, o' = .done y s := by
  cases h with
  | tooDeep => exact absurd rfl ho
  | _ => simp

theorem Agree.ne_tooDeep (h : o.Agree S R o') (ho : o ≠ .tooDeep) : o' ≠ .tooDeep := by
  cases h with
  | tooDeep => exact absurd rfl ho
  | _ => nofun

theorem Agree.fail_iff (h : o.Agree S R o') (ho : o ≠ .tooDeep) (e : ε) :
    (∃ x s, o = .fail e x s) ↔ ∃ y s, o' = .fail e y s := by
  cases h with
  | tooDeep => exact absurd rfl ho
  | _ => simp

end Outcome

open Outcome

/-! ### Loops -/

section Loops

variable {ε σ α β κ τ : Type*} {S : σ → σ → Prop}

/-- The keys of objects of the types `ts`, where `key t` is what counts of an object of type `t`. -/
def memberKeys [Inhabited α] (key : τ → α → κ) : List τ → List α → List κ
  | [], _ => []
  | t :: ts, xs => key t (xs.headD default) :: memberKeys key ts xs.tail

theorem memberKeys_cons [Inhabited α] {key : τ → α → κ} {t : τ} {ts : List τ} {xs ys : List α}
    (h : memberKeys key (t :: ts) xs = memberKeys key (t :: ts) ys) :
    key t (xs.headD default) = key t (ys.headD default) ∧
      memberKeys key ts xs.tail = memberKeys key ts ys.tail :=
  List.cons_eq_cons.mp h

theorem getD_tail (xs : List α) (i : ℕ) (x : α) : xs.tail.getD i x = xs.getD (i + 1) x := by
  cases xs <;> rfl

theorem memberKeys_congr [Inhabited α] {key : τ → α → κ} {ts : List τ} {xs ys : List α}
    (h : ∀ i t, ts[i]? = some t → key t (xs.getD i default) = key t (ys.getD i default)) :
    memberKeys key ts xs = memberKeys key ts ys := by
  induction ts generalizing xs ys with
  | nil => rfl
  | cons t ts ih =>
    rw [memberKeys, memberKeys, List.headD_eq_getD, List.headD_eq_getD, h 0 t rfl]
    refine congrArg _ (ih fun i u hu => ?_)
    have hrest := h (i + 1) u hu
    rw [← getD_tail, ← getD_tail] at hrest
    exact hrest

theorem memberKeys_map {ι : Type*} [Inhabited α] (key : τ → α → κ) (f : ι → τ) (ts : List ι)
    (xs : List α) : memberKeys key (ts.map f) xs = memberKeys (fun t => key (f t)) ts xs := by
  induction ts generalizing xs with
  | nil => rfl
  | cons t ts ih => exact congrArg _ (ih xs.tail)

/-- Decoders that agree on objects with the same keys make loops that do. -/
theorem each_agree [Inhabited α] {key : τ → α → κ} {F G : τ → Into ε σ α} {ts : List τ}
    (h : ∀ t ∈ ts, ∀ x y s, key t x = key t y →
      (F t x s).Agree S (fun x y => key t x = key t y) (G t y s)) {xs ys : List α}
    (hkeys : memberKeys key ts xs = memberKeys key ts ys) (s : σ) :
    (each (ts.map F) xs s).Agree S (fun xs ys => memberKeys key ts xs = memberKeys key ts ys)
      (each (ts.map G) ys s) := by
  induction ts generalizing xs ys s with
  | nil => exact .done rfl
  | cons t ts ih =>
    obtain ⟨hhead, htail⟩ := memberKeys_cons hkeys
    refine (h t List.mem_cons_self _ _ s hhead).andThen ?_ ?_
    · intro x y hxy
      exact congrArg₂ List.cons hxy htail
    · intro x y s hxy _ _
      refine (ih (fun t ht => h t (List.mem_cons_of_mem _ ht)) htail s).map fun xs ys hxys => ?_
      exact congrArg₂ List.cons hxy hxys

theorem again_agree {R : α → β → Prop} {f : Into ε σ α} {g : Into ε σ β}
    (h : ∀ x y s, R x y → (f x s).Agree S R (g y s)) (n : ℕ) {x : α} {y : β} (hxy : R x y) (s : σ) :
    (again f n x s).Agree S R (again g n y s) := by
  induction n generalizing x y s with
  | zero => exact .done hxy
  | succ n ih => exact (h x y s hxy).andThen (fun _ _ h => h) fun x y s hxy _ _ => ih hxy s

/-- Of `n` objects that are read one after the other, all but the last are fit. -/
def keepsFit (read : σ → Outcome ε σ α) (fit : α → Bool) : ℕ → σ → Bool
  | 0, _ => true
  | n + 1, s =>
    match read s with
    | .done x s => n == 0 || (fit x && keepsFit read fit n s)
    | _ => true

/-- A new element for each round, and one object for all of them, which stays fit for the next
where the new elements are. -/
theorem appendNew_agree_again {f : Into ε σ α} {g : Into ε σ β} {init : α} {R : α → β → Prop}
    {I : β → Prop} {fit : α → Bool} (h : ∀ y s, I y → (f init s).Agree S R (g y s))
    (hI : ∀ x y, fit x = true → R x y → I y) {n : ℕ} {s : σ}
    (hfit : keepsFit (f init) fit n s = true) {y : β} (hy : I y) :
    (appendNew f init n s).Agree S (fun _ _ => True) (again g n y s) := by
  induction n generalizing y s with
  | zero => exact .done trivial
  | succ n ih =>
    refine (h y s hy).andThen (fun _ _ _ => trivial) fun x y' s' hxy hx _ => ?_
    refine Agree.map_left (R := fun _ _ => True) ?_ fun _ _ _ => trivial
    rw [keepsFit, hx] at hfit
    cases n with
    | zero => exact .done trivial
    | succ n =>
      obtain ⟨hfit, hrest⟩ := Bool.and_eq_true_iff.mp hfit
      exact ih hrest (hI x y' hfit hxy)

/-! ### A decoder that gives up -/

/-- Where decoders end as others do, unless they give up, so do the loops over them. -/
theorem each_agree_self [Inhabited α] {fs gs : List (Into ε σ α)}
    (h : List.Forall₂ (fun f g => ∀ x s, (f x s).Agree (· = ·) (· = ·) (g x s)) fs gs)
    (xs : List α) (s : σ) : (each fs xs s).Agree (· = ·) (· = ·) (each gs xs s) := by
  induction h generalizing xs s with
  | nil => exact .done rfl
  | cons h _ ih =>
    refine (h _ s).andThen ?_ ?_
    · rintro x _ rfl
      rfl
    · rintro x _ s rfl - -
      exact (ih _ s).map fun _ _ h => congrArg _ h

theorem appendNew_agree_self {f g : Into ε σ α}
    (h : ∀ x s, (f x s).Agree (· = ·) (· = ·) (g x s)) (init : α) (n : ℕ) (s : σ) :
    (appendNew f init n s).Agree (· = ·) (· = ·) (appendNew g init n s) := by
  induction n generalizing s with
  | zero => exact .done rfl
  | succ n ih =>
    refine (h init s).andThen ?_ ?_
    · rintro x _ rfl
      rfl
    · rintro x _ s rfl - -
      exact (ih s).map fun _ _ h => congrArg _ h

end Loops

end Yalantinglibs.Decoding
