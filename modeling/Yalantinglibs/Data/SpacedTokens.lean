import Mathlib.Data.List.Chain
import Yalantinglibs.Data.ByteCodec

/-!
# Tokens with blanks between them

A text is written as a list of tokens with any blanks before, between and behind them. The tokens
are the same however many blanks there are, and blanks in front of a text can be taken away.

## Main definitions

* `Lexis` — tokens, what they are written as, and the blanks
* `Lexis.text` — the tokens with the blanks before each of them and those at the end
* `Lexis.Spells` — a text is written with these tokens
* `Lexis.Tight` — no blanks between certain tokens

## Main results

* `spells_gap_append_iff` — blanks in front do not matter
* `spells_raw_append_iff` — a token in front is the first token
-/

set_option autoImplicit false

namespace Yalantinglibs

open ByteCodec

/-- Tokens and blanks; no token begins with a blank. -/
structure Lexis (τ : Type*) where
  blank : UInt8 → Bool
  raw : τ → Bytes
  exists_head : ∀ t, ∃ c cs, raw t = c :: cs ∧ blank c = false

namespace Lexis

variable {τ : Type*} (L : Lexis τ)

/-- A run of blanks. -/
abbrev Gap : Type := {g : Bytes // ∀ b ∈ g, L.blank b = true}

/-- No blanks. -/
def noGap : L.Gap := ⟨[], List.forall_mem_nil _⟩

/-- The tokens, each behind its blanks, and the blanks at the end. -/
def text (last : L.Gap) : List (L.Gap × τ) → Bytes
  | [] => last.1
  | (g, t) :: gs => g.1 ++ (L.raw t ++ text last gs)

/-- The text is written with these tokens. -/
def Spells (ts : List τ) (bs : Bytes) : Prop :=
  ∃ last gs, gs.map Prod.snd = ts ∧ L.text last gs = bs

/-- The text from its first token on. -/
def bare (last : L.Gap) : List (L.Gap × τ) → Bytes
  | [] => []
  | (_, t) :: gs => L.raw t ++ text L last gs

/-- No blanks between tokens that are to stand next to each other. -/
def Tight (glued : τ → τ → Prop) (gs : List (L.Gap × τ)) : Prop :=
  gs.IsChain fun p q => glued p.2 q.2 → q.1.1 = []

variable {L} {ts : List τ} {t : τ} {bs : Bytes}

theorem spells_text (last : L.Gap) (gs : List (L.Gap × τ)) :
    L.Spells (gs.map Prod.snd) (L.text last gs) := ⟨last, gs, rfl, rfl⟩

theorem spells_nil_iff : L.Spells [] bs ↔ ∀ b ∈ bs, L.blank b = true := by
  constructor
  · rintro ⟨last, gs, hgs, rfl⟩
    rw [List.map_eq_nil_iff.mp hgs]
    exact last.2
  · intro h
    exact ⟨⟨bs, h⟩, [], rfl, rfl⟩

theorem spells_cons_iff : L.Spells (t :: ts) bs ↔
    ∃ (g : L.Gap) (rest : Bytes), bs = g.1 ++ (L.raw t ++ rest) ∧ L.Spells ts rest := by
  constructor
  · rintro ⟨last, gs, hgs, rfl⟩
    obtain ⟨⟨g, u⟩, gs, rfl, rfl, rfl⟩ := List.map_eq_cons_iff.mp hgs
    exact ⟨g, L.text last gs, rfl, spells_text last gs⟩
  · rintro ⟨g, rest, rfl, last, gs, rfl, rfl⟩
    exact ⟨last, (g, t) :: gs, rfl, rfl⟩

/-- Blanks in front do not matter. -/
theorem spells_gap_append_iff (g : L.Gap) : L.Spells ts (g.1 ++ bs) ↔ L.Spells ts bs := by
  cases ts with
  | nil =>
    rw [spells_nil_iff, spells_nil_iff, List.forall_mem_append]
    exact and_iff_right g.2
  | cons t ts =>
    rw [spells_cons_iff, spells_cons_iff]
    constructor
    · rintro ⟨g', rest, h, hrest⟩
      -- the first of the token's characters is no blank, so the blanks are the longer run
      obtain ⟨c, cs, hraw, hc⟩ := L.exists_head t
      rcases List.append_eq_append_iff.mp h with ⟨u, hu, hbs⟩ | ⟨u, hu, hbs⟩
      · exact ⟨⟨u, fun b hb => g'.2 b (hu ▸ List.mem_append_right _ hb)⟩, rest, hbs, hrest⟩
      · cases u with
        | nil => exact ⟨L.noGap, rest, hbs.symm, hrest⟩
        | cons d u =>
          rw [hraw, List.cons_append, List.cons_append] at hbs
          injection hbs with hcd
          have hd := g.2 d (hu ▸ List.mem_append_right _ List.mem_cons_self)
          rw [← hcd, hc] at hd
          cases hd
    · rintro ⟨g', rest, rfl, hrest⟩
      refine ⟨⟨g.1 ++ g'.1, ?_⟩, rest, (List.append_assoc _ _ _).symm, hrest⟩
      exact List.forall_mem_append.mpr ⟨g.2, g'.2⟩

/-- A text that begins with a token begins with the first of its tokens. -/
theorem spells_cons_raw_iff (u : τ) : L.Spells (t :: ts) (L.raw u ++ bs) ↔
    ∃ rest, L.raw u ++ bs = L.raw t ++ rest ∧ L.Spells ts rest := by
  rw [spells_cons_iff]
  constructor
  · rintro ⟨g, rest, h, hrest⟩
    obtain ⟨c, cs, hraw, hc⟩ := L.exists_head u
    obtain ⟨g, hg⟩ := g
    cases g with
    | nil => exact ⟨rest, h, hrest⟩
    | cons d g =>
      rw [hraw, List.cons_append] at h
      injection h with hcd
      rw [hcd, hg d List.mem_cons_self] at hc
      cases hc
  · rintro ⟨rest, h, hrest⟩
    exact ⟨L.noGap, rest, h, hrest⟩

/-- A token in front is the first token. -/
theorem spells_raw_append_iff : L.Spells (t :: ts) (L.raw t ++ bs) ↔ L.Spells ts bs := by
  rw [spells_cons_raw_iff]
  constructor
  · rintro ⟨rest, h, hrest⟩
    exact List.append_cancel_left h ▸ hrest
  · intro h
    exact ⟨bs, rfl, h⟩

/-! ### Blanks that are not wanted -/

section Tight

variable {glued : τ → τ → Prop} {last : L.Gap} {p : L.Gap × τ} {as gs : List (L.Gap × τ)}

theorem text_eq_gap_append (last : L.Gap) (gs : List (L.Gap × τ)) :
    ∃ g : L.Gap, L.text last gs = g.1 ++ L.bare last gs := by
  cases gs with
  | nil => exact ⟨last, (List.append_nil _).symm⟩
  | cons p gs => exact ⟨p.1, rfl⟩

/-- Blanks before a token may stand wherever it is not to stand next to the one before. -/
theorem tight_append_iff (h : ∀ p ∈ as.getLast?, ∀ q ∈ gs.head?, ¬ glued p.2 q.2) :
    L.Tight glued (as ++ gs) ↔ L.Tight glued as ∧ L.Tight glued gs := by
  rw [Tight, List.isChain_append]
  exact ⟨fun ⟨has, hgs, _⟩ => ⟨has, hgs⟩,
    fun ⟨has, hgs⟩ => ⟨has, hgs, fun p hp q hq hglued => absurd hglued (h p hp q hq)⟩⟩

theorem tight_cons_iff (h : ∀ q ∈ gs.head?, ¬ glued p.2 q.2) :
    L.Tight glued (p :: gs) ↔ L.Tight glued gs := by
  rw [Tight, List.isChain_cons]
  exact and_iff_right fun q hq hglued => absurd hglued (h q hq)

theorem tight_cons_cons_iff {q : L.Gap × τ} (h : glued p.2 q.2) :
    L.Tight glued (p :: q :: gs) ↔ q.1.1 = [] ∧ L.Tight glued (q :: gs) := by
  rw [Tight, List.isChain_cons_cons]
  exact and_congr_left' ⟨fun hq => hq h, fun hq _ => hq⟩

/-- There are at least as many characters as tokens. -/
theorem length_le_length_text (last : L.Gap) (gs : List (L.Gap × τ)) :
    gs.length ≤ (L.text last gs).length := by
  induction gs with
  | nil => exact Nat.zero_le _
  | cons p gs ih =>
    obtain ⟨g, t⟩ := p
    obtain ⟨c, cs, hraw, -⟩ := L.exists_head t
    rw [text, List.length_append, List.length_append, hraw, List.length_cons, List.length_cons]
    omega

theorem length_le_length_bare (last : L.Gap) (gs : List (L.Gap × τ)) :
    gs.length ≤ (L.bare last gs).length := by
  cases gs with
  | nil => exact Nat.zero_le _
  | cons p gs =>
    obtain ⟨g, t⟩ := p
    obtain ⟨c, cs, hraw, -⟩ := L.exists_head t
    have hgs := length_le_length_text last gs
    rw [bare, List.length_append, hraw, List.length_cons, List.length_cons]
    omega

end Tight

end Lexis

end Yalantinglibs
