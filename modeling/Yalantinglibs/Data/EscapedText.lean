import Yalantinglibs.Data.ByteCodec

/-!
# Texts with escapes

A text format writes most bytes as they are and a few as escapes. A decoder of such a format scans
over a run of plain bytes, copies the run, takes off the escape that ended it, and goes on. This
file reduces what such a decoder makes of a whole text to what it makes of the pieces.

## Main definitions

* `Piece` — a piece of a text, as it is written and as it reads
* `Decodes` — the decoder takes a piece off the front of a text, behind a run of plain bytes

## Main results

* `exists_run_pieces` — the decoder takes off all pieces, one after the other
-/

set_option autoImplicit false

namespace Yalantinglibs.EscapedText

/-- A piece of a text. -/
structure Piece where
  written : Bytes
  read : Bytes

variable {ρ : Type*} (run : ℕ → Bytes → Bytes → ρ) (plain : UInt8 → Prop)

/-- The decoder `run`, with a bound on its steps and the bytes read so far, takes the piece off in
front of a text that ends in `tail`. A plain byte joins the run before it. -/
def Decodes (tail : Bytes) (u : Piece) : Prop :=
  (∃ b, u = ⟨[b], [b]⟩ ∧ plain b) ∨
    ∀ n m value p rest, (∀ b ∈ p, plain b) → n + u.written.length ≤ m →
      ∃ m', n ≤ m' ∧ run m value (p ++ (u.written ++ (rest ++ tail))) =
        run m' (value ++ p ++ u.read) (rest ++ tail)

variable {run plain} {tail : Bytes} {us : List Piece}

/-- All pieces are taken off, but for a last run of plain bytes. -/
theorem exists_run_pieces (h : ∀ u ∈ us, Decodes run plain tail u) {n m : ℕ} (value : Bytes)
    {p : Bytes} (hp : ∀ b ∈ p, plain b) (hm : n + (us.flatMap Piece.written).length ≤ m) :
    ∃ m' value' p', n ≤ m' ∧ (∀ b ∈ p', plain b) ∧
      run m value (p ++ (us.flatMap Piece.written ++ tail)) = run m' value' (p' ++ tail) ∧
      value' ++ p' = value ++ p ++ us.flatMap Piece.read := by
  induction us generalizing m value p with
  | nil => exact ⟨m, value, p, by simpa using hm, hp, by simp, by simp⟩
  | cons u us ih =>
    have ih := @ih fun v hv => h v (List.mem_cons_of_mem _ hv)
    rw [List.flatMap_cons, List.length_append] at hm
    simp only [List.flatMap_cons, List.append_assoc]
    rcases h u List.mem_cons_self with ⟨b, rfl, hb⟩ | hu
    · have hplain : ∀ a ∈ p ++ [b], plain a := by
        intro a ha
        rcases List.mem_append.mp ha with ha | ha
        · exact hp a ha
        · rwa [List.mem_singleton.mp ha]
      obtain ⟨m', value', p', hm', hp', hrun, hread⟩ := @ih m value _ hplain (by omega)
      exact ⟨m', value', p', hm', hp', by simpa using hrun, by simpa using hread⟩
    · obtain ⟨m₁, hm₁, hstep⟩ := hu (n + (us.flatMap Piece.written).length) m value p
        (us.flatMap Piece.written) hp (by omega)
      obtain ⟨m', value', p', hm', hp', hrun, hread⟩ :=
        @ih m₁ (value ++ p ++ u.read) [] (by simp) hm₁
      refine ⟨m', value', p', hm', hp', hstep.trans (by simpa using hrun), ?_⟩
      simpa using hread

end Yalantinglibs.EscapedText
