import Mathlib.Data.List.Infix

/-!
# Decoding into objects

A decoder in the style of C++ reads from a state into an object that exists already. It
returns a code and leaves the object changed whether it succeeds or not, so the object is
part of the outcome of a failure too. This file provides outcomes, the three loops that
decode several objects, and the rules by which facts about a loop follow from facts about
its body.

## Main definitions

* `Outcome` — what a decoder ends with
* `Into` — a decoder into an object
* `each`, `appendNew`, `again` — decoding a list of objects, new elements, and one object
  over and over
* `Outcome.Ends` — a condition on the state at the end
* `Outcome.Accepts`, `Outcome.Yields` — the decoder is done with a word, and decodes it to a
  value exactly under a condition on the object
* `Outcome.Takes` — the decoder takes a fixed number of items

## Main results

* `each_yields_cons`, `appendNew_yields_succ` — a word of several objects, one after the other
* `Outcome.Takes.andThen` — what two decoders take together
-/

set_option autoImplicit false

namespace Yalantinglibs.Decoding

/-- What a decoder ends with: it is done, it fails with a code, it throws, or the bound on
its depth was too small. -/
inductive Outcome (ε σ α : Type*)
  | done (item : α) (state : σ)
  | fail (code : ε) (item : α) (state : σ)
  | throws
  | tooDeep

/-- A decoder into an object. -/
abbrev Into (ε σ α : Type*) := α → σ → Outcome ε σ α

namespace Outcome

variable {ε σ α β : Type*}

/-- The same outcome for an object that holds the decoded one. -/
def map (f : α → β) : Outcome ε σ α → Outcome ε σ β
  | done x s => done (f x) s
  | fail e x s => fail e (f x) s
  | throws => throws
  | tooDeep => tooDeep

/-- Go on after a success; `partly` is the whole object after a failure. -/
def andThen (o : Outcome ε σ α) (partly : α → β) (next : α → σ → Outcome ε σ β) :
    Outcome ε σ β :=
  match o with
  | done x s => next x s
  | fail e x s => fail e (partly x) s
  | throws => throws
  | tooDeep => tooDeep

/-- The code of the decoder is not looked at. -/
def dropCode : Outcome ε σ α → Outcome ε σ α
  | fail _ x s => done x s
  | o => o

@[simp] theorem map_done (f : α → β) (x : α) (s : σ) :
    (done x s : Outcome ε σ α).map f = done (f x) s := rfl

@[simp] theorem map_fail (f : α → β) (e : ε) (x : α) (s : σ) :
    (fail e x s).map f = fail e (f x) s := rfl

@[simp] theorem map_throws (f : α → β) : (throws : Outcome ε σ α).map f = throws := rfl

@[simp] theorem map_tooDeep (f : α → β) : (tooDeep : Outcome ε σ α).map f = tooDeep := rfl

@[simp] theorem andThen_done (p : α → β) (n : α → σ → Outcome ε σ β) (x : α) (s : σ) :
    (done x s : Outcome ε σ α).andThen p n = n x s := rfl

@[simp] theorem andThen_fail (p : α → β) (n : α → σ → Outcome ε σ β) (e : ε) (x : α) (s : σ) :
    (fail e x s).andThen p n = fail e (p x) s := rfl

@[simp] theorem andThen_throws (p : α → β) (n : α → σ → Outcome ε σ β) :
    (throws : Outcome ε σ α).andThen p n = throws := rfl

@[simp] theorem andThen_tooDeep (p : α → β) (n : α → σ → Outcome ε σ β) :
    (tooDeep : Outcome ε σ α).andThen p n = tooDeep := rfl

@[simp] theorem dropCode_done (x : α) (s : σ) :
    (done x s : Outcome ε σ α).dropCode = done x s := rfl

@[simp] theorem dropCode_fail (e : ε) (x : α) (s : σ) : (fail e x s).dropCode = done x s := rfl

@[simp] theorem dropCode_throws : (throws : Outcome ε σ α).dropCode = throws := rfl

@[simp] theorem dropCode_tooDeep : (tooDeep : Outcome ε σ α).dropCode = tooDeep := rfl

/-- The state at the end satisfies `P`, if the decoder returns. -/
def Ends (P : σ → Prop) : Outcome ε σ α → Prop
  | done _ s => P s
  | fail _ _ s => P s
  | throws => True
  | tooDeep => True

end Outcome

open Outcome

/-! ### Loops -/

section Loops

variable {ε σ α : Type*}

/-- Decode a list of objects, each with a decoder of its own. -/
def each [Inhabited α] : List (Into ε σ α) → List α → σ → Outcome ε σ (List α)
  | [], _, s => .done [] s
  | f :: fs, xs, s =>
    (f (xs.headD default) s).andThen (· :: xs.tail) fun x s =>
      (each fs xs.tail s).map (x :: ·)

/-- Append `n` elements, each decoded into a copy of `init`. A failure leaves the element
it happened in. -/
def appendNew (f : Into ε σ α) (init : α) : ℕ → σ → Outcome ε σ (List α)
  | 0, s => .done [] s
  | n + 1, s =>
    (f init s).andThen (fun x => [x]) fun x s => (appendNew f init n s).map (x :: ·)

/-- Decode into one object `n` times. -/
def again (f : Into ε σ α) : ℕ → α → σ → Outcome ε σ α
  | 0, x, s => .done x s
  | n + 1, x, s => (f x s).andThen id fun x s => again f n x s

end Loops

/-! ### Decoding a word -/

namespace Outcome

section

variable {ε σ α β : Type*} {E P Q : Prop} {o : Outcome ε σ α} {s s' : σ} {v : α}

/-- The decoder is done in the state `s`, or throws. -/
def Accepts (o : Outcome ε σ α) (s : σ) : Prop := (∃ y, o = done y s) ∨ o = throws

/-- Where `P` holds, the decoder is done in the state `s` with the object `v`; and as far as `E`
says, it is done there or throws, and the object is `v` only then. -/
def Yields (o : Outcome ε σ α) (E P : Prop) (v : α) (s : σ) : Prop :=
  (P → o = done v s) ∧ (E → o.Accepts s ∧ (o = done v s → P))

theorem yields_done {y : α} (h : P → y = v) (h' : E → y = v → P) :
    (done y s : Outcome ε σ α).Yields E P v s := by
  refine ⟨fun hP => by rw [h hP], fun hE => ⟨.inl ⟨y, rfl⟩, fun hdone => ?_⟩⟩
  exact h' hE (Outcome.done.inj hdone).1

theorem yields_throws (hP : ¬ P) : (throws : Outcome ε σ α).Yields E P v s :=
  ⟨fun h => absurd h hP, fun _ => ⟨.inr rfl, nofun⟩⟩

theorem Yields.congr (h : o.Yields E P v s) (hPQ : P ↔ Q) : o.Yields E Q v s := by
  obtain rfl : P = Q := propext hPQ
  exact h

/-- Where `P` holds, the object is `v`. -/
theorem Yields.eq_done (h : o.Yields E P v s) (hP : P) : o = done v s := h.1 hP

/-- Where `E` holds, the object is `v` only if `P` holds. -/
theorem Yields.of_eq_done (h : o.Yields E P v s) (hE : E) (hdone : o = done v s) : P :=
  (h.2 hE).2 hdone

/-- Where `E` fails, it is enough to know the outcome where `P` holds. -/
theorem yields_of_eq_done (hP : P → o = done v s) (hE : ¬ E) : o.Yields E P v s :=
  ⟨hP, fun h => absurd h hE⟩

/-- The outcome for an object that holds the decoded one. -/
theorem Yields.map (h : o.Yields E P v s) {f : α → β} (hf : Function.Injective f) :
    (o.map f).Yields E P (f v) s := by
  refine ⟨fun hP => by rw [h.1 hP, map_done], fun hE => ?_⟩
  obtain ⟨hacc, honly⟩ := h.2 hE
  obtain ⟨y, rfl⟩ | rfl := hacc
  · refine ⟨.inl ⟨f y, rfl⟩, fun hdone => honly ?_⟩
    rw [hf (Outcome.done.inj hdone).1]
  · exact ⟨.inr rfl, nofun⟩

theorem Yields.dropCode (h : o.Yields E P v s) : o.dropCode.Yields E P v s := by
  refine ⟨fun hP => by rw [h.1 hP, dropCode_done], fun hE => ?_⟩
  obtain ⟨hacc, honly⟩ := h.2 hE
  obtain ⟨y, rfl⟩ | rfl := hacc
  · exact ⟨.inl ⟨y, rfl⟩, honly⟩
  · exact ⟨.inr rfl, nofun⟩

/-- What follows does not touch the object. -/
theorem Yields.followed (h : o.Yields E P v s) (p : α → α) {n : α → σ → Outcome ε σ α}
    (hn : ∀ y, n y s = done y s') : (o.andThen p n).Yields E P v s' := by
  refine ⟨fun hP => by rw [h.1 hP, andThen_done, hn], fun hE => ?_⟩
  obtain ⟨hacc, honly⟩ := h.2 hE
  obtain ⟨y, rfl⟩ | rfl := hacc
  · rw [andThen_done, hn]
    exact ⟨.inl ⟨y, rfl⟩, fun hdone => honly (by rw [(Outcome.done.inj hdone).1])⟩
  · exact ⟨.inr rfl, nofun⟩

end

end Outcome

section Sequences

variable {ε σ α : Type*} {E P Q : Prop} {s s' s'' : σ} {f : Into ε σ α} {v : α} {vs : List α}

/-- One object after the other. -/
theorem Outcome.Yields.cons {o : Outcome ε σ α} {next : σ → Outcome ε σ (List α)}
    (h : o.Yields E P v s') (hn : (next s').Yields E Q vs s'') (p : α → List α) :
    (o.andThen p fun x s => (next s).map (x :: ·)).Yields E (P ∧ Q) (v :: vs) s'' := by
  refine ⟨fun hPQ => by rw [h.1 hPQ.1, andThen_done, hn.1 hPQ.2, map_done], fun hE => ?_⟩
  obtain ⟨hacc, honly⟩ := h.2 hE
  obtain ⟨hacc', honly'⟩ := hn.2 hE
  obtain ⟨y, rfl⟩ | rfl := hacc
  · rw [andThen_done]
    obtain ⟨ys, hys⟩ | hthrows := hacc'
    · rw [hys, map_done]
      refine ⟨.inl ⟨y :: ys, rfl⟩, fun hdone => ?_⟩
      obtain ⟨hy, hys'⟩ := List.cons_eq_cons.mp (Outcome.done.inj hdone).1
      exact ⟨honly (by rw [hy]), honly' (by rw [hys, hys'])⟩
    · rw [hthrows]
      exact ⟨.inr rfl, nofun⟩
  · exact ⟨.inr rfl, nofun⟩

theorem each_yields_cons [Inhabited α] {fs : List (Into ε σ α)} {xs : List α}
    (hf : (f (xs.headD default) s).Yields E P v s')
    (hfs : (each fs xs.tail s').Yields E Q vs s'') :
    (each (f :: fs) xs s).Yields E (P ∧ Q) (v :: vs) s'' := by
  rw [each]
  exact hf.cons hfs _

theorem appendNew_yields_succ {init : α} {n : ℕ} (hf : (f init s).Yields E P v s')
    (hn : (appendNew f init n s').Yields E Q vs s'') :
    (appendNew f init (n + 1) s).Yields E (P ∧ Q) (v :: vs) s'' := by
  rw [appendNew]
  exact hf.cons hn _

end Sequences

/-! ### A fixed number of items -/

namespace Outcome

variable {ε α β γ : Type*} {e : ε} {m n : ℕ} {s : List γ} {o : Outcome ε (List γ) α}

/-- The decoder takes `n` items from the state `s`, or fails with `e` where there are fewer. -/
def Takes (o : Outcome ε (List γ) α) (e : ε) (n : ℕ) (s : List γ) : Prop :=
  (n ≤ s.length ∧ ∃ x, o = done x (s.drop n)) ∨ (s.length < n ∧ ∃ x s', o = fail e x s')

theorem takes_zero (e : ε) (x : α) (s : List γ) : (done x s : Outcome ε (List γ) α).Takes e 0 s :=
  .inl ⟨Nat.zero_le _, x, rfl⟩

theorem Takes.exists_done (h : o.Takes e n s) (hn : n ≤ s.length) :
    ∃ x, o = done x (s.drop n) := by
  rcases h with ⟨-, h⟩ | ⟨hlt, -⟩
  · exact h
  · exact absurd hlt (Nat.not_lt.mpr hn)

theorem Takes.map (h : o.Takes e n s) (f : α → β) : (o.map f).Takes e n s := by
  rcases h with ⟨hn, x, rfl⟩ | ⟨hn, x, s', rfl⟩
  · exact .inl ⟨hn, f x, rfl⟩
  · exact .inr ⟨hn, f x, s', rfl⟩

theorem Takes.andThen (h : o.Takes e m s) (p : α → β) {next : α → List γ → Outcome ε (List γ) β}
    (hnext : ∀ x, (next x (s.drop m)).Takes e n (s.drop m)) :
    (o.andThen p next).Takes e (m + n) s := by
  rcases h with ⟨hm, x, rfl⟩ | ⟨hm, x, s', rfl⟩
  · rcases hnext x with ⟨hn, y, hy⟩ | ⟨hn, y, s', hy⟩
    · rw [List.length_drop] at hn
      exact .inl ⟨by omega, y, by rw [andThen_done, hy, List.drop_drop]⟩
    · rw [List.length_drop] at hn
      exact .inr ⟨by omega, y, s', hy⟩
  · exact .inr ⟨hm.trans_le (Nat.le_add_right m n), p x, s', rfl⟩

end Outcome

end Yalantinglibs.Decoding
