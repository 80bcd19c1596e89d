import Yalantinglibs.Iguana.JsonText

/-!
# Pretty printing

`iguana/prettify.hpp` copies a text character by character, with an end of line behind every comma
and around what brackets enclose. An automaton tells the characters of strings from the others; the
state it is in within a string knows nothing of escapes, so that an escaped quote ends the string
for it, and the rest of the string is laid out as if it stood between strings.

## Main definitions

* `prettify` — the printer
* `passes` — what a string may hold behind an escaped quote
* `Undisturbed` — the texts of which only the blanks change

## Main results

* `spells_written_iff` — when the tokens stay the same
* `written_written` — a text that was printed stays as it is
* `prettifiesWell_iff` — both, and the counter of brackets not below zero
* `undisturbed_of_no_escaped_quote` — texts without escaped quotes
-/

set_option autoImplicit false

namespace Yalantinglibs.Iguana

open ByteCodec

/-! ### The printer -/

/-- `general_state`. -/
inductive GeneralState where
  | normal | escaped | string | beforeAsterisk | comment | beforeFslash
  deriving DecidableEq

/-- What the printer has: its output, `indent` and `state`. -/
structure Prettifier where
  out : Bytes
  indent : UInt32
  state : GeneralState
  deriving DecidableEq

section Printer

variable (tabs : Bool) (indentSize : UInt32)

/-- What `nl` appends. -/
def newline (indent : UInt32) : Bytes :=
  lineFeed :: List.replicate (indent * if tabs then 1 else indentSize).toNat
    (if tabs then 0x09 else 0x20)

/-- `prettify_normal_state`. -/
def prettifyNormalState (c : UInt8) (p : Prettifier) : Prettifier :=
  if c = 0x2C then { p with out := p.out ++ c :: newline tabs indentSize p.indent }
  else if c = 0x5B || c = 0x7B then
    { p with
      out := p.out ++ c :: newline tabs indentSize (p.indent + 1)
      indent := p.indent + 1 }
  else if c = 0x5D || c = 0x7D then
    { p with
      out := p.out ++ newline tabs indentSize (p.indent - 1) ++ [c]
      indent := p.indent - 1 }
  else if c = backslash then { p with out := p.out ++ [c], state := .escaped }
  else if c = quote then { p with out := p.out ++ [c], state := .string }
  else if c = slash then { p with out := p.out ++ [space, slash], state := .beforeAsterisk }
  else if c = 0x3A then { p with out := p.out ++ [0x3A, space] }
  else if isJsonBlank c then p
  else { p with out := p.out ++ [c] }

/-- `prettify_other_states`. -/
def prettifyOtherStates (c : UInt8) : GeneralState → GeneralState
  | .escaped => .normal
  | .string => if c = quote then .normal else .string
  | .beforeAsterisk => .comment
  | .comment => if c = star then .beforeFslash else .comment
  | .beforeFslash => if c = slash then .normal else .comment
  | .normal => .normal

/-- The body of the loop of `prettify`. -/
def prettifyChar (p : Prettifier) (c : UInt8) : Prettifier :=
  if p.state = .normal then prettifyNormalState tabs indentSize c p
  else { p with out := p.out ++ [c], state := prettifyOtherStates c p.state }

/-- The printer before the first character. -/
def prettifyStart : Prettifier := ⟨[], 0, .normal⟩

/-- `prettify`. -/
def prettify (text : Bytes) : Bytes :=
  (text.foldl (prettifyChar tabs indentSize) prettifyStart).out

/-- Wherever the printer takes a bracket for the end of a container, its counter is not zero. -/
def NeverBelowZero (text : Bytes) : Prop :=
  ∀ before c after, text = before ++ c :: after → c = 0x5D ∨ c = 0x7D →
    (before.foldl (prettifyChar tabs indentSize) prettifyStart).state = .normal →
    (before.foldl (prettifyChar tabs indentSize) prettifyStart).indent ≠ 0

end Printer

/-! ### What a text is turned into -/

/-- What the printer knows of the text before. -/
@[ext] structure Control where
  indent : UInt32
  state : GeneralState
  deriving DecidableEq

/-- What a character does to it. -/
def Control.next (k : Control) (c : UInt8) : Control :=
  if k.state = .normal then
    if c = 0x5B || c = 0x7B then { k with indent := k.indent + 1 }
    else if c = 0x5D || c = 0x7D then { k with indent := k.indent - 1 }
    else if c = backslash then { k with state := .escaped }
    else if c = quote then { k with state := .string }
    else if c = slash then { k with state := .beforeAsterisk }
    else k
  else { k with state := prettifyOtherStates c k.state }

/-- What a text does to it. -/
def Control.after (k : Control) (bs : Bytes) : Control := bs.foldl Control.next k

section Written

variable (tabs : Bool) (indentSize : UInt32)

/-- What a character is turned into. -/
def Control.emit (k : Control) (c : UInt8) : Bytes :=
  if k.state = .normal then
    if c = 0x2C then c :: newline tabs indentSize k.indent
    else if c = 0x5B || c = 0x7B then c :: newline tabs indentSize (k.indent + 1)
    else if c = 0x5D || c = 0x7D then newline tabs indentSize (k.indent - 1) ++ [c]
    else if c = slash then [space, slash]
    else if c = 0x3A then [0x3A, space]
    else if isJsonBlank c then []
    else [c]
  else [c]

/-- What a text is turned into. -/
def Control.written (k : Control) : Bytes → Bytes
  | [] => []
  | c :: bs => k.emit tabs indentSize c ++ (k.next c).written bs

end Written

variable {tabs : Bool} {indentSize : UInt32} {k : Control} {bs : Bytes}

/-- What the printer knows. -/
def Prettifier.control (p : Prettifier) : Control := ⟨p.indent, p.state⟩

/-- The characters that the printer treats like no other between strings. -/
def isSpecial (c : UInt8) : Bool :=
  c = 0x2C || c = 0x5B || c = 0x7B || c = 0x5D || c = 0x7D || c = backslash || c = quote ||
    c = slash || c = 0x3A || isJsonBlank c

theorem mem_of_isSpecial {c : UInt8} (h : isSpecial c = true) :
    c ∈ [0x2C, 0x5B, 0x7B, 0x5D, 0x7D, backslash, quote, slash, 0x3A, 0x20, 0x09, 0x0A, 0x0D] := by
  simpa [isSpecial, isJsonBlank, or_assoc] using h

/-- An ordinary character is copied and changes nothing between strings. -/
theorem prettifyNormalState_ordinary {c : UInt8} (h : isSpecial c = false) (p : Prettifier) :
    prettifyNormalState tabs indentSize c p = { p with out := p.out ++ [c] } := by
  simp only [isSpecial, Bool.or_eq_false_iff, decide_eq_false_iff_not] at h
  simp [prettifyNormalState, h]

theorem emit_ordinary {c : UInt8} (h : isSpecial c = false) :
    k.emit tabs indentSize c = [c] := by
  simp only [isSpecial, Bool.or_eq_false_iff, decide_eq_false_iff_not] at h
  simp [Control.emit, h]

theorem next_ordinary {c : UInt8} (h : isSpecial c = false) (hk : k.state = .normal) :
    k.next c = k := by
  simp only [isSpecial, Bool.or_eq_false_iff, decide_eq_false_iff_not] at h
  simp [Control.next, h, hk]

theorem emit_of_ne_normal {c : UInt8} (hk : k.state ≠ .normal) :
    k.emit tabs indentSize c = [c] := if_neg hk

theorem next_of_ne_normal {c : UInt8} (hk : k.state ≠ .normal) :
    k.next c = { k with state := prettifyOtherStates c k.state } := if_neg hk

theorem prettifyChar_eq (p : Prettifier) (c : UInt8) :
    prettifyChar tabs indentSize p c =
      ⟨p.out ++ p.control.emit tabs indentSize c, (p.control.next c).indent,
        (p.control.next c).state⟩ := by
  by_cases hp : p.state = .normal
  · rw [prettifyChar, if_pos hp]
    cases hc : isSpecial c with
    | false =>
      rw [prettifyNormalState_ordinary hc, emit_ordinary hc, next_ordinary hc hp]
      rfl
    | true =>
      obtain ⟨out, indent, state⟩ := p
      cases (show state = .normal from hp)
      have hmem := mem_of_isSpecial hc
      simp only [List.mem_cons, List.not_mem_nil, or_false] at hmem
      rcases hmem with rfl | rfl | rfl | rfl | rfl | rfl | rfl | rfl | rfl | rfl | rfl | rfl | rfl
      case inr.inr.inr.inl | inr.inr.inr.inr.inl =>
        exact congrArg (Prettifier.mk · _ _) (List.append_assoc _ _ _)
      all_goals first
        | rfl
        | exact congrArg (Prettifier.mk · _ _) (List.append_nil _).symm
  · rw [prettifyChar, if_neg hp, emit_of_ne_normal hp, next_of_ne_normal hp]
    rfl

theorem foldl_prettifyChar (p : Prettifier) (bs : Bytes) :
    bs.foldl (prettifyChar tabs indentSize) p =
      ⟨p.out ++ p.control.written tabs indentSize bs, (p.control.after bs).indent,
        (p.control.after bs).state⟩ := by
  induction bs generalizing p with
  | nil => rw [List.foldl_nil, Control.written, List.append_nil]; rfl
  | cons c bs ih =>
    rw [List.foldl_cons, ih, prettifyChar_eq, Control.written, ← List.append_assoc]
    rfl

/-! ### What strings may hold -/

/-- How the printer reads a string: as a string, as text between strings, there behind a colon or a
blank, or as a comment. -/
inductive Reading where
  | string | text | behindColon | behindBlank | beforeAsterisk | comment | beforeFslash
  deriving DecidableEq

/-- What a character of a string does to the reading, if it is not changed. -/
def passChar : Reading → JsonChar → Option Reading
  | .string, .escaped c _ => if c = quote then some .text else some .string
  | .string, _ => some .string
  -- a blank is dropped and comes back with a slash, a colon brings a blank of its own
  | .text, .plain b _ =>
    if b = space then some .behindBlank
    else if b = 0x3A then some .behindColon
    else if isSpecial b then none
    else some .text
  | .text, _ => some .text
  | .behindColon, .plain b _ => if b = space then some .text else none
  | .behindColon, _ => none
  | .behindBlank, .plain b _ => if b = slash then some .beforeAsterisk else none
  | .behindBlank, _ => none
  | .beforeAsterisk, _ => some .comment
  | .comment, .plain b _ => if b = star then some .beforeFslash else some .comment
  | .comment, _ => some .comment
  | .beforeFslash, .plain b _ => if b = slash then some .text else some .comment
  | .beforeFslash, _ => some .comment

/-- How a string is read from its first character on. -/
def GeneralState.opened : GeneralState → Reading
  | .normal => .string
  | .string => .text
  | _ => .comment

/-- What the printer takes the end of a string for, if nothing was changed. -/
def Reading.closed : Reading → Option GeneralState
  | .string => some .normal
  | .text => some .string
  | .behindColon | .behindBlank => none
  | .beforeAsterisk | .comment | .beforeFslash => some .comment

/-- What a string does to the printer, if it is not changed. -/
def passes (state : GeneralState) (s : JsonString) : Option GeneralState :=
  (s.chars.foldlM passChar state.opened).bind Reading.closed

/-- No string is changed, and no bracket that the printer takes for one closes a container at a
depth that its counter cannot tell from zero. -/
def Undisturbed : GeneralState → ℕ → List JsonToken → Prop
  | _, _, [] => True
  | state, depth, .literal _ :: ts => Undisturbed state depth ts
  | state, depth, .string s :: ts => ∃ state' ∈ passes state s, Undisturbed state' depth ts
  | state, depth, .punct p :: ts =>
    if state = .normal then
      match p with
      | .openBracket | .openBrace => Undisturbed state (depth + 1) ts
      | .closeBracket | .closeBrace => depth % 2 ^ 32 ≠ 0 ∧ Undisturbed state (depth - 1) ts
      | .colon | .comma => Undisturbed state depth ts
    else Undisturbed state depth ts

/-! ### Strings -/

/-- The state in which a string is read so. -/
def Reading.state : Reading → GeneralState
  | .string => .string
  | .text | .behindColon | .behindBlank => .normal
  | .beforeAsterisk => .beforeAsterisk
  | .comment => .comment
  | .beforeFslash => .beforeFslash

/-- Behind a colon the output is a blank ahead, behind a blank it is one behind. -/
def Reading.Agrees (read : Reading) (out inp : Bytes) : Prop :=
  match read with
  | .behindColon => out = inp ++ [space]
  | .behindBlank => inp = out ++ [space]
  | _ => out = inp

/-- The brackets of a text that the printer takes for the end of a container find its counter above
zero. -/
def Control.Within (k : Control) : Bytes → Prop
  | [] => True
  | c :: bs => (c = 0x5D ∨ c = 0x7D → k.state = .normal → k.indent ≠ 0) ∧ (k.next c).Within bs

theorem written_append (k : Control) (as bs : Bytes) :
    k.written tabs indentSize (as ++ bs) =
      k.written tabs indentSize as ++ (k.after as).written tabs indentSize bs := by
  induction as generalizing k with
  | nil => rfl
  | cons a as ih =>
    rw [List.cons_append, Control.written, Control.written, ih, List.append_assoc]
    rfl

theorem after_append (k : Control) (as bs : Bytes) : k.after (as ++ bs) = (k.after as).after bs :=
  List.foldl_append

theorem within_append_iff (k : Control) (as bs : Bytes) :
    k.Within (as ++ bs) ↔ k.Within as ∧ (k.after as).Within bs := by
  induction as generalizing k with
  | nil => exact ⟨fun h => ⟨trivial, h⟩, And.right⟩
  | cons a as ih =>
    rw [List.cons_append, Control.Within, Control.Within, ih, and_assoc]
    rfl

theorem written_singleton (k : Control) (c : UInt8) :
    k.written tabs indentSize [c] = k.emit tabs indentSize c := List.append_nil _

theorem within_singleton {c : UInt8} (hbracket : c ≠ 0x5D) (hbrace : c ≠ 0x7D) : k.Within [c] :=
  ⟨fun h => h.elim (absurd · hbracket) (absurd · hbrace), trivial⟩

variable (tabs indentSize) in
/-- A text that the printer copies. -/
def Copies (indent : UInt32) (state : GeneralState) (bs : Bytes) (state' : GeneralState) : Prop :=
  Control.written tabs indentSize ⟨indent, state⟩ bs = bs ∧
    Control.after ⟨indent, state⟩ bs = ⟨indent, state'⟩ ∧ Control.Within ⟨indent, state⟩ bs

section Copies

variable {indent : UInt32} {state state' : GeneralState} {c : UInt8}

theorem copies_nil : Copies tabs indentSize indent state [] state := ⟨rfl, rfl, trivial⟩

/-- In a string or a comment every character is copied. -/
theorem Copies.cons (hstate : state ≠ .normal)
    (h : Copies tabs indentSize indent (prettifyOtherStates c state) bs state') :
    Copies tabs indentSize indent state (c :: bs) state' := by
  obtain ⟨hwritten, hafter, hwithin⟩ := h
  have hnext : Control.next ⟨indent, state⟩ c = ⟨indent, prettifyOtherStates c state⟩ :=
    if_neg hstate
  refine ⟨?_, ?_, fun _ h => absurd h hstate, ?_⟩
  · rw [Control.written, emit_of_ne_normal hstate, hnext, hwritten]
    rfl
  · rw [Control.after, List.foldl_cons, hnext]
    exact hafter
  · rw [hnext]
    exact hwithin

/-- Between strings an ordinary character is. -/
theorem Copies.cons_ordinary (hc : isSpecial c = false)
    (h : Copies tabs indentSize indent .normal bs state') :
    Copies tabs indentSize indent .normal (c :: bs) state' := by
  obtain ⟨hwritten, hafter, hwithin⟩ := h
  have hnext : Control.next ⟨indent, .normal⟩ c = ⟨indent, .normal⟩ := next_ordinary hc rfl
  refine ⟨?_, ?_, ?_, ?_⟩
  · rw [Control.written, emit_ordinary hc, hnext, hwritten]
    rfl
  · rw [Control.after, List.foldl_cons, hnext]
    exact hafter
  · rintro (rfl | rfl) <;> cases hc
  · rw [hnext]
    exact hwithin

/-- Between strings a backslash and the character behind it are. -/
theorem Copies.cons_backslash (h : Copies tabs indentSize indent .escaped bs state') :
    Copies tabs indentSize indent .normal (backslash :: bs) state' := by
  obtain ⟨hwritten, hafter, hwithin⟩ := h
  refine ⟨congrArg (backslash :: ·) hwritten, hafter, ?_, hwithin⟩
  rintro (h | h) <;> cases h

theorem not_isSpecial_of_isLiteralChar (h : isLiteralChar c = true) : isSpecial c = false := by
  rw [Bool.eq_false_iff]
  intro hc
  have hmem : ∀ b ∈ [0x2C, 0x5B, 0x7B, 0x5D, 0x7D, backslash, quote, slash, 0x3A, 0x20, 0x09, 0x0A,
      0x0D], isLiteralChar b = false := by decide
  rw [hmem c (mem_of_isSpecial hc)] at h
  cases h

/-- The characters of literals are copied wherever they stand. -/
theorem copies_literal (h : ∀ b ∈ bs, isLiteralChar b = true)
    (hstate : state ∈ [.normal, .string, .comment]) :
    Copies tabs indentSize indent state bs state := by
  induction bs with
  | nil => exact copies_nil
  | cons c bs ih =>
    have hc := h c List.mem_cons_self
    have ih := ih fun b hb => h b (List.mem_cons_of_mem _ hb)
    simp only [List.mem_cons, List.not_mem_nil, or_false] at hstate
    rcases hstate with rfl | rfl | rfl
    · exact ih.cons_ordinary (not_isSpecial_of_isLiteralChar hc)
    · have hquote : c ≠ quote := by
        rintro rfl
        cases hc
      apply Copies.cons (by decide)
      rw [prettifyOtherStates, if_neg hquote]
      exact ih
    · have hstar : c ≠ star := by
        rintro rfl
        cases hc
      apply Copies.cons (by decide)
      rw [prettifyOtherStates, if_neg hstar]
      exact ih

theorem isLiteralChar_of_hexValue {d : UInt8} (h : (hexValue d).isSome) :
    isLiteralChar d = true := by
  simp only [hexValue] at h
  simp only [isLiteralChar, isDigit, Bool.or_eq_true, Bool.and_eq_true, decide_eq_true_eq,
    UInt8.le_iff_toNat_le]
  split_ifs at h with hdigit hupper hlower
  · exact .inl (.inl (.inl (.inl (.inl hdigit))))
  · exact .inl (.inr ⟨hupper.1, hupper.2.trans (by decide)⟩)
  · exact .inr ⟨hlower.1, hlower.2.trans (by decide)⟩
  · cases h

/-! An escape is a backslash, a character and what literals are written with. -/

variable {e : UInt8} {ds : Bytes}

theorem copies_escape_normal (hds : ∀ d ∈ ds, isLiteralChar d = true) :
    Copies tabs indentSize indent .normal (backslash :: e :: ds) .normal := by
  apply Copies.cons_backslash
  apply Copies.cons (by decide)
  rw [prettifyOtherStates]
  exact copies_literal hds (by decide)

theorem copies_escape_string (he : e ≠ quote) (hds : ∀ d ∈ ds, isLiteralChar d = true) :
    Copies tabs indentSize indent .string (backslash :: e :: ds) .string := by
  apply Copies.cons (by decide)
  apply Copies.cons (by decide)
  show Copies _ _ _ (if e = quote then _ else _) _ _
  rw [if_neg he]
  exact copies_literal hds (by decide)

theorem copies_escape_comment (he : e ≠ star) (hds : ∀ d ∈ ds, isLiteralChar d = true)
    (hstate : state ∈ [.beforeAsterisk, .comment, .beforeFslash]) :
    Copies tabs indentSize indent state (backslash :: e :: ds) .comment := by
  simp only [List.mem_cons, List.not_mem_nil, or_false] at hstate
  have hstep : prettifyOtherStates backslash state = .comment := by
    rcases hstate with rfl | rfl | rfl <;> rfl
  apply Copies.cons
  · rcases hstate with rfl | rfl | rfl <;> decide
  · rw [hstep]
    apply Copies.cons (by decide)
    rw [prettifyOtherStates, if_neg he]
    exact copies_literal hds (by decide)

theorem copies_singleton (hstate : state ≠ .normal) :
    Copies tabs indentSize indent state [c] (prettifyOtherStates c state) :=
  copies_nil.cons hstate

end Copies

/-! One character of a string, by how it is read and by what it is. -/

section PassChar

variable {indent : UInt32} {read read' : Reading} {c : JsonChar} {out inp : Bytes}

/-- What a character of a string is turned into, where it is not changed. -/
structure Passes (tabs : Bool) (indentSize indent : UInt32) (read read' : Reading) (bs : Bytes) :
    Prop where
  agrees : ∀ out inp, read.Agrees out inp →
    read'.Agrees (out ++ Control.written tabs indentSize ⟨indent, read.state⟩ bs) (inp ++ bs)
  after : Control.after ⟨indent, read.state⟩ bs = ⟨indent, read'.state⟩
  within : Control.Within ⟨indent, read.state⟩ bs

/-- Neither ahead nor behind. -/
def Reading.Level (read : Reading) : Prop := ∀ out inp, read.Agrees out inp ↔ out = inp

theorem Copies.passes (h : Copies tabs indentSize indent read.state bs read'.state)
    (hread : read.Level) (hread' : read'.Level) :
    Passes tabs indentSize indent read read' bs := by
  obtain ⟨hwritten, hafter, hwithin⟩ := h
  refine ⟨?_, hafter, hwithin⟩
  intro out inp hagrees
  rw [hwritten]
  exact (hread' _ _).mpr (congrArg (· ++ bs) ((hread _ _).mp hagrees))

theorem level_string : Reading.string.Level := fun _ _ => Iff.rfl

theorem level_text : Reading.text.Level := fun _ _ => Iff.rfl

theorem level_beforeAsterisk : Reading.beforeAsterisk.Level := fun _ _ => Iff.rfl

theorem level_comment : Reading.comment.Level := fun _ _ => Iff.rfl

theorem level_beforeFslash : Reading.beforeFslash.Level := fun _ _ => Iff.rfl

theorem ne_star_of_mem {e : UInt8} (he : e ∈ simpleEscapes) : e ≠ star := by
  rintro rfl
  exact absurd he (by decide)

variable (tabs indentSize indent) in
/-- An escape outside of a string stays between strings or in a comment. -/
theorem passes_escape {e : UInt8} {ds : Bytes} (he : e ≠ star)
    (hds : ∀ d ∈ ds, isLiteralChar d = true) :
    Passes tabs indentSize indent .text .text (backslash :: e :: ds) ∧
      Passes tabs indentSize indent .beforeAsterisk .comment (backslash :: e :: ds) ∧
      Passes tabs indentSize indent .comment .comment (backslash :: e :: ds) ∧
      Passes tabs indentSize indent .beforeFslash .comment (backslash :: e :: ds) :=
  ⟨(copies_escape_normal hds).passes level_text level_text,
    (copies_escape_comment he hds (by decide)).passes level_beforeAsterisk level_comment,
    (copies_escape_comment he hds (by decide)).passes level_comment level_comment,
    (copies_escape_comment he hds (by decide)).passes level_beforeFslash level_comment⟩

theorem passes_plain {b : UInt8} {hb : isEscapeOrQoute b = false}
    (h : passChar read (.plain b hb) = some read') :
    Passes tabs indentSize indent read read' [b] := by
  simp only [isEscapeOrQoute, Bool.or_eq_false_iff, decide_eq_false_iff_not] at hb
  cases read with
  | string =>
    cases h
    have hcopy : Copies tabs indentSize indent .string [b] (if b = quote then _ else _) :=
      copies_singleton (by decide)
    rw [if_neg hb.1] at hcopy
    exact hcopy.passes level_string level_string
  | text =>
    rw [passChar] at h
    by_cases hspace : b = space
    · rw [if_pos hspace] at h
      cases h
      rw [hspace]
      refine ⟨?_, rfl, within_singleton (by decide) (by decide)⟩
      rintro out _ rfl
      exact (congrArg (· ++ [space]) (List.append_nil out)).symm
    rw [if_neg hspace] at h
    by_cases hcolon : b = 0x3A
    · rw [if_pos hcolon] at h
      cases h
      rw [hcolon]
      refine ⟨?_, rfl, within_singleton (by decide) (by decide)⟩
      rintro out _ rfl
      exact (List.append_assoc out [0x3A] [space]).symm
    rw [if_neg hcolon] at h
    cases hspecial : isSpecial b with
    | true =>
      rw [if_pos hspecial] at h
      cases h
    | false =>
      rw [if_neg (by rw [hspecial]; exact Bool.false_ne_true)] at h
      cases h
      exact (copies_nil.cons_ordinary hspecial).passes level_text level_text
  | behindColon =>
    rw [passChar] at h
    split_ifs at h with hspace
    cases h
    rw [hspace]
    refine ⟨?_, rfl, within_singleton (by decide) (by decide)⟩
    rintro _ inp rfl
    exact List.append_nil _
  | behindBlank =>
    rw [passChar] at h
    split_ifs at h with hslash
    cases h
    rw [hslash]
    refine ⟨?_, rfl, within_singleton (by decide) (by decide)⟩
    rintro out _ rfl
    exact (List.append_assoc out [space] [slash]).symm
  | beforeAsterisk =>
    cases h
    exact (copies_singleton (by decide)).passes level_beforeAsterisk level_comment
  | comment =>
    have hcopy : Copies tabs indentSize indent .comment [b]
        (if b = star then .beforeFslash else .comment) := copies_singleton (by decide)
    rw [passChar] at h
    by_cases hstar : b = star
    · rw [if_pos hstar] at h hcopy
      cases h
      exact hcopy.passes level_comment level_beforeFslash
    · rw [if_neg hstar] at h hcopy
      cases h
      exact hcopy.passes level_comment level_comment
  | beforeFslash =>
    have hcopy : Copies tabs indentSize indent .beforeFslash [b]
        (if b = slash then .normal else .comment) := copies_singleton (by decide)
    rw [passChar] at h
    by_cases hslash : b = slash
    · rw [if_pos hslash] at h hcopy
      cases h
      exact hcopy.passes level_beforeFslash level_text
    · rw [if_neg hslash] at h hcopy
      cases h
      exact hcopy.passes level_beforeFslash level_comment

theorem passes_passChar (h : passChar read c = some read') :
    Passes tabs indentSize indent read read' c.raw := by
  cases c with
  | plain b hb => exact passes_plain h
  | escaped e he =>
    obtain ⟨htext, hbefore, hcomment, hfslash⟩ := passes_escape tabs indentSize indent
      (ne_star_of_mem he) (List.forall_mem_nil _)
    cases read with
    | string =>
      rw [passChar] at h
      by_cases hquote : e = quote
      · rw [if_pos hquote] at h
        cases h
        rw [JsonChar.raw, hquote]
        exact (((copies_singleton (by decide)).cons (by decide)).passes level_string level_text)
      · rw [if_neg hquote] at h
        cases h
        exact (copies_escape_string hquote (List.forall_mem_nil _)).passes level_string level_string
    | text => cases h; exact htext
    | behindColon | behindBlank => cases h
    | beforeAsterisk => cases h; exact hbefore
    | comment => cases h; exact hcomment
    | beforeFslash => cases h; exact hfslash
  | unicode d₀ d₁ d₂ d₃ hd =>
    have hds : ∀ d ∈ [d₀, d₁, d₂, d₃], isLiteralChar d = true := fun d hm =>
      isLiteralChar_of_hexValue (hd d hm)
    obtain ⟨htext, hbefore, hcomment, hfslash⟩ := passes_escape tabs indentSize indent
      (show (0x75 : UInt8) ≠ star by decide) hds
    cases read with
    | string =>
      cases h
      exact (copies_escape_string (by decide) hds).passes level_string level_string
    | text => cases h; exact htext
    | behindColon | behindBlank => cases h
    | beforeAsterisk => cases h; exact hbefore
    | comment => cases h; exact hcomment
    | beforeFslash => cases h; exact hfslash

theorem Passes.nil : Passes tabs indentSize indent read read [] where
  agrees out inp h := by
    rw [Control.written, List.append_nil, List.append_nil]
    exact h
  after := rfl
  within := trivial

theorem Passes.append {read'' : Reading} {as : Bytes}
    (h : Passes tabs indentSize indent read read' as)
    (h' : Passes tabs indentSize indent read' read'' bs) :
    Passes tabs indentSize indent read read'' (as ++ bs) where
  agrees out inp hagrees := by
    rw [written_append, h.after, ← List.append_assoc, ← List.append_assoc]
    exact h'.agrees _ _ (h.agrees out inp hagrees)
  after := by
    rw [after_append, h.after]
    exact h'.after
  within := by
    rw [within_append_iff, h.after]
    exact ⟨h.within, h'.within⟩

/-- A string is read character by character. -/
theorem passes_rawOf {cs : List JsonChar} (h : cs.foldlM passChar read = some read') :
    Passes tabs indentSize indent read read' (rawOf cs) := by
  induction cs generalizing read with
  | nil =>
    cases h
    exact Passes.nil
  | cons c cs ih =>
    rw [List.foldlM_cons] at h
    obtain ⟨read'', hc, hcs⟩ := Option.bind_eq_some_iff.mp h
    exact (passes_passChar hc).append (ih hcs)

end PassChar

/-! ### Strings that are changed -/

section Changed

variable {indent : UInt32} {read : Reading} {cs : List JsonChar}

theorem rawOf_cons (c : JsonChar) (cs : List JsonChar) : rawOf (c :: cs) = c.raw ++ rawOf cs :=
  List.flatMap_cons

/-- A blank at the front of what is written between strings came with a slash. -/
theorem exists_slash_of_written {y z : Bytes}
    (h : Control.written tabs indentSize ⟨indent, .normal⟩ (rawOf cs ++ [quote]) ++ y =
      space :: z) :
    ∃ z', z = slash :: z' := by
  induction cs generalizing indent with
  | nil => cases h
  | cons c cs ih =>
    rw [rawOf_cons] at h
    cases c with
    | escaped e he => cases h
    | unicode d₀ d₁ d₂ d₃ hd => cases h
    | plain b hb =>
      rw [JsonChar.raw, List.singleton_append, List.cons_append, Control.written] at h
      cases hspecial : isSpecial b with
      | false =>
        rw [emit_ordinary hspecial] at h
        injection h with hspace
        rw [hspace] at hspecial
        cases hspecial
      | true =>
        have hmem := mem_of_isSpecial hspecial
        simp only [List.mem_cons, List.not_mem_nil, or_false] at hmem
        rcases hmem with
          rfl | rfl | rfl | rfl | rfl | rfl | rfl | rfl | rfl | rfl | rfl | rfl | rfl
        -- a slash comes with a blank of its own, and blanks are passed over
        case inr.inr.inr.inr.inr.inr.inr.inl =>
          injection h with _ hz
          exact ⟨_, hz.symm⟩
        case inr.inr.inr.inr.inr.inr.inr.inr.inr.inl => exact ih h
        case inr.inr.inr.inr.inr.inr.inr.inr.inr.inr.inl => exact ih h
        case inr.inr.inr.inr.inr.inr.inr.inr.inr.inr.inr.inl => exact ih h
        case inr.inr.inr.inr.inr.inr.inr.inr.inr.inr.inr.inr => exact ih h
        all_goals cases h

/-- What stands in a string is no end of a line. -/
theorem rawOf_append_ne_lineFeed {x z : Bytes} (hcs : ∀ c ∈ cs, c.IsStrict) :
    rawOf cs ++ quote :: x ≠ lineFeed :: z := by
  intro h
  cases cs with
  | nil => cases h
  | cons c cs =>
    rw [rawOf_cons] at h
    cases c with
    | escaped e he => cases h
    | unicode d₀ d₁ d₂ d₃ hd => cases h
    | plain b hb =>
      injection h with hb'
      have hle := hcs _ List.mem_cons_self
      rw [JsonChar.IsStrict, hb'] at hle
      exact absurd hle (by decide)

/-- A character of a string that does not pass between strings is followed by something else. -/
theorem ne_of_passChar_text {b : UInt8} {hb : isEscapeOrQoute b = false} (hstrict : space ≤ b)
    (hcs : ∀ c ∈ cs, c.IsStrict) (h : passChar .text (.plain b hb) = none) (x y : Bytes) :
    b :: (rawOf cs ++ quote :: x) ≠
      Control.written tabs indentSize ⟨indent, .normal⟩ (b :: (rawOf cs ++ [quote])) ++ y := by
  intro heq
  rw [passChar] at h
  split_ifs at h with hspace hcolon hspecial
  have hmem := mem_of_isSpecial hspecial
  simp only [List.mem_cons, List.not_mem_nil, or_false] at hmem
  rcases hmem with rfl | rfl | rfl | rfl | rfl | rfl | rfl | rfl | rfl | rfl | rfl | rfl | rfl
  -- behind a comma and behind an opening bracket a line ends
  case inl | inr.inl | inr.inr.inl =>
    injection heq with _ heq
    exact rawOf_append_ne_lineFeed hcs heq
  case inr.inr.inr.inr.inr.inl => cases hb
  case inr.inr.inr.inr.inr.inr.inl => cases hb
  case inr.inr.inr.inr.inr.inr.inr.inr.inl => exact hcolon rfl
  case inr.inr.inr.inr.inr.inr.inr.inr.inr.inl => exact hspace rfl
  -- control characters do not stand in strings
  case inr.inr.inr.inr.inr.inr.inr.inr.inr.inr.inl => exact absurd hstrict (by decide)
  case inr.inr.inr.inr.inr.inr.inr.inr.inr.inr.inr.inl => exact absurd hstrict (by decide)
  case inr.inr.inr.inr.inr.inr.inr.inr.inr.inr.inr.inr => exact absurd hstrict (by decide)
  -- before a closing bracket a line ends, and before a slash there is a blank
  all_goals cases heq

/-- Characters are changed only where they are read as text between strings. -/
theorem passChar_eq_none {c : JsonChar} (h : passChar read c = none) :
    (read = .text ∧ ∃ b hb, c = .plain b hb) ∨ (read = .behindColon ∧ c.raw ≠ [space]) ∨
      (read = .behindBlank ∧ c.raw ≠ [slash]) := by
  cases read with
  | string =>
    cases c with
    | escaped e he =>
      rw [passChar] at h
      split_ifs at h
    | plain | unicode => cases h
  | text =>
    cases c with
    | plain b hb => exact .inl ⟨rfl, b, hb, rfl⟩
    | escaped | unicode => cases h
  | behindColon =>
    refine .inr (.inl ⟨rfl, ?_⟩)
    cases c with
    | plain b hb =>
      rintro hraw
      rw [passChar, if_pos (List.singleton_inj.mp hraw)] at h
      cases h
    | escaped | unicode => nofun
  | behindBlank =>
    refine .inr (.inr ⟨rfl, ?_⟩)
    cases c with
    | plain b hb =>
      rintro hraw
      rw [passChar, if_pos (List.singleton_inj.mp hraw)] at h
      cases h
    | escaped | unicode => nofun
  | beforeAsterisk => cases h
  | comment | beforeFslash =>
    cases c with
    | plain b hb =>
      rw [passChar] at h
      split_ifs at h
    | escaped | unicode => cases h

/-- A character that begins the text is the whole of what a character of a string is written as,
unless it is a backslash. -/
theorem JsonChar.raw_eq_of_append {c : JsonChar} {b : UInt8} {x z : Bytes}
    (h : c.raw ++ x = b :: z) (hb : b ≠ backslash) : c.raw = [b] := by
  cases c with
  | plain b' hb' =>
    injection h with h
    rw [raw, h]
  | escaped | unicode =>
    injection h with h
    exact absurd h.symm hb

variable (tabs indentSize indent) in
/-- A string that does not pass is not what is written. -/
theorem ne_of_not_passes {out inp : Bytes} (hcs : ∀ c ∈ cs, c.IsStrict)
    (h : (cs.foldlM passChar read).bind Reading.closed = none) (hagrees : read.Agrees out inp)
    (x y : Bytes) :
    inp ++ (rawOf cs ++ quote :: x) ≠
      out ++ (Control.written tabs indentSize ⟨indent, read.state⟩ (rawOf cs ++ [quote]) ++ y) := by
  intro heq
  induction cs generalizing read out inp with
  | nil =>
    cases read with
    | behindColon =>
      rw [show out = inp ++ [space] from hagrees, List.append_assoc] at heq
      cases List.append_cancel_left heq
    | behindBlank =>
      rw [show inp = out ++ [space] from hagrees, List.append_assoc] at heq
      cases List.append_cancel_left heq
    | string | text | beforeAsterisk | comment | beforeFslash => cases h
  | cons c cs ih =>
    cases hc : passChar read c with
    | some read' =>
      rw [List.foldlM_cons, hc] at h
      have hpasses : Passes tabs indentSize indent read read' c.raw := passes_passChar hc
      apply ih (fun d hd => hcs d (List.mem_cons_of_mem _ hd)) h (hpasses.agrees out inp hagrees)
      rw [rawOf_cons, List.append_assoc, List.append_assoc, written_append, hpasses.after,
        List.append_assoc] at heq
      rw [List.append_assoc, List.append_assoc]
      exact heq
    | none =>
      rcases passChar_eq_none hc with ⟨rfl, b, hb, rfl⟩ | ⟨rfl, hraw⟩ | ⟨rfl, hraw⟩
      · cases (show out = inp from hagrees)
        rw [rawOf_cons] at heq
        exact ne_of_passChar_text (hcs _ List.mem_cons_self)
          (fun d hd => hcs d (List.mem_cons_of_mem _ hd)) hc x y (List.append_cancel_left heq)
      · -- the blank behind the colon is there already
        rw [show out = inp ++ [space] from hagrees, List.append_assoc, rawOf_cons,
          List.append_assoc] at heq
        exact hraw (JsonChar.raw_eq_of_append (List.append_cancel_left heq) (by decide))
      · -- the blank comes back only with a slash
        rw [show inp = out ++ [space] from hagrees, List.append_assoc] at heq
        have heq := List.append_cancel_left heq
        obtain ⟨z, hz⟩ := exists_slash_of_written heq.symm
        rw [rawOf_cons, List.append_assoc] at hz
        exact hraw (JsonChar.raw_eq_of_append hz (by decide))

end Changed

/-! ### Tokens -/

section Tokens

variable {t : JsonToken} {ts : List JsonToken} {depth : ℕ}

/-- The states between tokens. -/
def Control.Between (k : Control) : Prop := k.state ∈ [.normal, .string, .comment]

/-- What is left of the blanks. -/
def keptGap (state : GeneralState) (g : json.Gap) : json.Gap :=
  if state = .normal then json.noGap else g

theorem keptGap_val (state : GeneralState) (g : json.Gap) :
    (keptGap state g).1 = if state = .normal then [] else g.1 := by
  unfold keptGap
  split <;> rfl

theorem next_blank {c : UInt8} (hk : k.Between) (hc : isJsonBlank c = true) :
    k.next c = k ∧ c ≠ 0x5D ∧ c ≠ 0x7D := by
  obtain ⟨indent, state⟩ := k
  simp only [Control.Between, List.mem_cons, List.not_mem_nil, or_false] at hk
  simp only [isJsonBlank, Bool.or_eq_true, decide_eq_true_eq] at hc
  rcases hk with rfl | rfl | rfl <;> rcases hc with ((rfl | rfl) | rfl) | rfl <;>
    exact ⟨rfl, by decide, by decide⟩

/-- Blanks change nothing. -/
theorem after_gap (hk : k.Between) (g : json.Gap) : k.after g.1 = k ∧ k.Within g.1 := by
  obtain ⟨g, hg⟩ := g
  induction g with
  | nil => exact ⟨rfl, trivial⟩
  | cons c g ih =>
    obtain ⟨hafter, hwithin⟩ := ih fun b hb => hg b (List.mem_cons_of_mem _ hb)
    obtain ⟨hnext, hbracket, hbrace⟩ := next_blank hk (hg c List.mem_cons_self)
    refine ⟨?_, fun h => (h.elim hbracket hbrace).elim, ?_⟩
    · rw [Control.after, List.foldl_cons, hnext]
      exact hafter
    · rw [hnext]
      exact hwithin

/-- Blanks are dropped or kept. -/
theorem written_gap (hk : k.Between) (g : json.Gap) :
    k.written tabs indentSize g.1 = (keptGap k.state g).1 := by
  obtain ⟨g, hg⟩ := g
  rw [keptGap_val]
  induction g with
  | nil => rw [Control.written, ite_self]
  | cons c g ih =>
    have hc : isJsonBlank c = true := hg c List.mem_cons_self
    rw [Control.written, (next_blank hk hc).1, ih fun b hb => hg b (List.mem_cons_of_mem _ hb)]
    by_cases hnormal : k.state = .normal
    · rw [if_pos hnormal, if_pos hnormal, Control.emit, if_pos hnormal]
      simp only [isJsonBlank, Bool.or_eq_true, decide_eq_true_eq] at hc
      rcases hc with ((rfl | rfl) | rfl) | rfl <;> rfl
    · rw [if_neg hnormal, if_neg hnormal, emit_of_ne_normal hnormal]
      rfl

variable (tabs indentSize) in
/-- A token stays, and what it is laid out with comes and goes. -/
def Laid (k : Control) (t : JsonToken) : Prop :=
  (k.after t.raw).Between ∧
    ∃ pre post : json.Gap, k.written tabs indentSize t.raw = pre.1 ++ (t.raw ++ post.1) ∧
      k.written tabs indentSize pre.1 = [] ∧
      (k.after t.raw).written tabs indentSize post.1 = []

theorem laid_of_written (hk : (k.after t.raw).Between)
    (h : k.written tabs indentSize t.raw = t.raw) : Laid tabs indentSize k t :=
  ⟨hk, json.noGap, json.noGap, h.trans (List.append_nil _).symm, rfl, rfl⟩

theorem after_literal (hk : k.Between) (l : JsonLiteral) :
    k.after l.raw = k ∧ k.Within l.raw := by
  obtain ⟨-, hafter, hwithin⟩ : Copies false 3 k.indent k.state l.raw k.state :=
    copies_literal l.isLiteralChar_raw hk
  exact ⟨hafter, hwithin⟩

theorem laid_literal (hk : k.Between) (l : JsonLiteral) : Laid tabs indentSize k (.literal l) := by
  obtain ⟨hwritten, hafter, -⟩ : Copies tabs indentSize k.indent k.state l.raw k.state :=
    copies_literal l.isLiteralChar_raw hk
  refine laid_of_written ?_ hwritten
  show (k.after l.raw).Between
  rw [show k.after l.raw = k from hafter]
  exact hk

/-- The end of a line and what it is indented by. -/
def newlineGap (tabs : Bool) (indentSize indent : UInt32) : json.Gap :=
  ⟨newline tabs indentSize indent, by
    intro b hb
    rcases List.mem_cons.mp hb with rfl | hb
    · rfl
    · rw [List.eq_of_mem_replicate hb]
      cases tabs <;> rfl⟩

theorem laid_punct (hk : k.Between) (p : JsonPunct) : Laid tabs indentSize k (.punct p) := by
  by_cases hnormal : k.state = .normal
  · obtain ⟨indent, state⟩ := k
    cases hnormal
    have hgap (i : UInt32) (g : json.Gap) :
        Control.written tabs indentSize ⟨i, .normal⟩ g.1 = [] := by
      have hi : Control.Between ⟨i, .normal⟩ := hk
      rw [written_gap hi, keptGap_val]
      exact if_pos rfl
    cases p with
    | openBracket | openBrace =>
      exact ⟨hk, json.noGap, newlineGap tabs indentSize (indent + 1), List.append_nil _, rfl,
        hgap _ _⟩
    | closeBracket | closeBrace =>
      exact ⟨hk, newlineGap tabs indentSize (indent - 1), json.noGap,
        List.append_nil _, hgap _ _, rfl⟩
    | colon => exact ⟨hk, json.noGap, ⟨[space], by decide⟩, rfl, rfl, rfl⟩
    | comma =>
      exact ⟨hk, json.noGap, newlineGap tabs indentSize indent, List.append_nil _, rfl, hgap _ _⟩
  · have hafter : k.after [p.code] = k := by
      obtain ⟨indent, state⟩ := k
      simp only [Control.Between, List.mem_cons, List.not_mem_nil, or_false] at hk
      rcases hk with rfl | rfl | rfl
      · exact absurd rfl hnormal
      · cases p <;> rfl
      · cases p <;> rfl
    apply laid_of_written
    · show (k.after [p.code]).Between
      rw [hafter]
      exact hk
    · show k.written tabs indentSize [p.code] = [p.code]
      rw [written_singleton, emit_of_ne_normal hnormal]

/-! A string is opened, read, and closed. -/

theorem next_quote (hk : k.Between) : k.next quote = ⟨k.indent, k.state.opened.state⟩ ∧
    k.state.opened.Level := by
  obtain ⟨indent, state⟩ := k
  simp only [Control.Between, List.mem_cons, List.not_mem_nil, or_false] at hk
  rcases hk with rfl | rfl | rfl
  · exact ⟨rfl, level_string⟩
  · exact ⟨rfl, level_text⟩
  · exact ⟨rfl, level_comment⟩

theorem emit_quote (k : Control) : k.emit tabs indentSize quote = [quote] := by
  by_cases hk : k.state = .normal
  · exact if_pos hk
  · exact if_neg hk

theorem next_closed {read : Reading} {state' : GeneralState} (h : read.closed = some state')
    (indent : UInt32) : Control.next ⟨indent, read.state⟩ quote = ⟨indent, state'⟩ ∧
      read.Level ∧ Control.Between ⟨indent, state'⟩ := by
  cases read with
  | string => cases h; exact ⟨rfl, level_string, .head _⟩
  | text => cases h; exact ⟨rfl, level_text, .tail _ (.head _)⟩
  | behindColon | behindBlank => cases h
  | beforeAsterisk => cases h; exact ⟨rfl, level_beforeAsterisk, .tail _ (.tail _ (.head _))⟩
  | comment => cases h; exact ⟨rfl, level_comment, .tail _ (.tail _ (.head _))⟩
  | beforeFslash => cases h; exact ⟨rfl, level_beforeFslash, .tail _ (.tail _ (.head _))⟩

theorem within_quote_cons (k : Control) (bs : Bytes) :
    k.Within (quote :: bs) ↔ (k.next quote).Within bs :=
  and_iff_right (by rintro (h | h) <;> cases h)

theorem after_string (hk : k.Between) {s : JsonString} {state' : GeneralState}
    (h : passes k.state s = some state') :
    k.after s.raw = ⟨k.indent, state'⟩ ∧ Control.Between ⟨k.indent, state'⟩ ∧ k.Within s.raw := by
  obtain ⟨read, hread, hclosed⟩ := Option.bind_eq_some_iff.mp h
  obtain ⟨hopen, -⟩ := next_quote hk
  obtain ⟨hclose, -, hbetween⟩ := next_closed hclosed k.indent
  have hpasses : Passes false 3 k.indent k.state.opened read (rawOf s.chars) := passes_rawOf hread
  refine ⟨?_, hbetween, ?_⟩
  · rw [JsonString.raw, Control.after, List.foldl_cons, hopen, ← Control.after, after_append,
      hpasses.after]
    exact hclose
  · rw [JsonString.raw, within_quote_cons, hopen, within_append_iff]
    exact ⟨hpasses.within, within_singleton (by decide) (by decide)⟩

theorem laid_string (hk : k.Between) {s : JsonString} {state' : GeneralState}
    (h : passes k.state s = some state') : Laid tabs indentSize k (.string s) := by
  obtain ⟨hafter, hbetween, -⟩ := after_string hk h
  obtain ⟨read, hread, hclosed⟩ := Option.bind_eq_some_iff.mp h
  obtain ⟨hopen, hlevel⟩ := next_quote hk
  obtain ⟨-, hlevel', -⟩ := next_closed hclosed k.indent
  apply laid_of_written
  · show (k.after s.raw).Between
    rw [hafter]
    exact hbetween
  · have hpasses : Passes tabs indentSize k.indent k.state.opened read (rawOf s.chars) :=
      passes_rawOf hread
    have hchars : Control.written tabs indentSize ⟨k.indent, k.state.opened.state⟩
        (rawOf s.chars) = rawOf s.chars :=
      (hlevel' _ _).mp (hpasses.agrees [] [] ((hlevel _ _).mpr rfl))
    show k.written tabs indentSize s.raw = s.raw
    rw [JsonString.raw, Control.written, hopen, written_append, hchars, written_singleton,
      emit_quote, emit_quote]
    rfl

/-- A string that does not pass is lost. -/
theorem exists_passes_of_spells (hk : k.Between) {s : JsonString}
    (h : json.Spells (.string s :: ts) (k.written tabs indentSize s.raw ++ bs)) :
    ∃ state', passes k.state s = some state' := by
  obtain ⟨hopen, hlevel⟩ := next_quote hk
  cases hpasses : passes k.state s with
  | some state' => exact ⟨state', rfl⟩
  | none =>
    obtain ⟨g, rest, hg, -⟩ := Lexis.spells_cons_iff.mp h
    rw [JsonString.raw, Control.written, emit_quote, hopen] at hg
    obtain ⟨g, hblank⟩ := g
    cases g with
    | nil =>
      injection hg with _ hg
      apply absurd _ (ne_of_not_passes tabs indentSize k.indent s.strict hpasses
        ((hlevel [] []).mpr rfl) rest bs)
      rw [List.nil_append, List.nil_append]
      exact ((List.append_assoc _ _ _).symm.trans hg.symm)
    | cons c g =>
      injection hg with hc
      cases hc ▸ hblank c List.mem_cons_self

theorem spells_laid_iff (h : Laid tabs indentSize k t) :
    json.Spells (t :: ts) (k.written tabs indentSize t.raw ++ bs) ↔ json.Spells ts bs := by
  obtain ⟨-, pre, post, hwritten, -, -⟩ := h
  rw [hwritten, List.append_assoc, Lexis.spells_gap_append_iff, List.append_assoc]
  exact Lexis.spells_raw_append_iff.trans (Lexis.spells_gap_append_iff post)

/-- What a token was laid out with is laid out again. -/
theorem written_laid (hk : k.Between) (h : Laid tabs indentSize k t) (bs : Bytes) :
    k.written tabs indentSize (k.written tabs indentSize t.raw ++ bs) =
      k.written tabs indentSize t.raw ++ (k.after t.raw).written tabs indentSize bs := by
  obtain ⟨hbetween, pre, post, hwritten, hpre, hpost⟩ := h
  rw [hwritten, List.append_assoc, written_append, hpre, (after_gap hk pre).1, List.nil_append,
    List.append_assoc, written_append, hwritten, written_append, hpost,
    (after_gap hbetween post).1, List.nil_append]

/-! ### Texts -/

/-- The depth behind a token. -/
def depthAfter (state : GeneralState) (depth : ℕ) : JsonToken → ℕ
  | .punct .openBracket | .punct .openBrace => if state = .normal then depth + 1 else depth
  | .punct .closeBracket | .punct .closeBrace => if state = .normal then depth - 1 else depth
  | _ => depth

theorem ofNat_eq_zero_iff (depth : ℕ) : UInt32.ofNat depth = 0 ↔ depth % 2 ^ 32 = 0 := by
  rw [← UInt32.toNat_inj, UInt32.toNat_ofNat']
  rfl

theorem undisturbed_punct_iff (hk : k.Between) (hdepth : k.indent = UInt32.ofNat depth)
    (p : JsonPunct) : Undisturbed k.state depth (.punct p :: ts) ↔
      k.Within [p.code] ∧
        Undisturbed (k.next p.code).state (depthAfter k.state depth (.punct p)) ts := by
  obtain ⟨indent, state⟩ := k
  by_cases hnormal : state = .normal
  · cases hnormal
    cases p with
    | openBracket | openBrace | colon | comma =>
      exact ⟨fun h => ⟨within_singleton (by decide) (by decide), h⟩, And.right⟩
    | closeBracket | closeBrace =>
      have hindent : indent ≠ 0 ↔ depth % 2 ^ 32 ≠ 0 := by
        rw [show indent = UInt32.ofNat depth from hdepth]
        exact (ofNat_eq_zero_iff depth).not
      constructor
      · rintro ⟨hne, h⟩
        exact ⟨⟨fun _ _ => hindent.mpr hne, trivial⟩, h⟩
      · rintro ⟨⟨hne, -⟩, h⟩
        refine ⟨hindent.mp (hne ?_ rfl), h⟩
        decide
  · have hstay : ∀ d, Undisturbed state d (.punct p :: ts) ↔ Undisturbed state d ts := by
      intro d
      cases p <;> rw [Undisturbed, if_neg hnormal]
    have hdepthAfter : depthAfter state depth (.punct p) = depth := by
      cases p with
      | openBracket | closeBracket | openBrace | closeBrace => exact if_neg hnormal
      | colon | comma => rfl
    have hnext : (Control.next ⟨indent, state⟩ p.code).state = state := by
      simp only [Control.Between, List.mem_cons, List.not_mem_nil, or_false] at hk
      rcases hk with rfl | rfl | rfl
      · exact absurd rfl hnormal
      · cases p <;> rfl
      · cases p <;> rfl
    rw [hstay, hdepthAfter, hnext]
    exact (and_iff_right ⟨fun _ h => absurd h hnormal, trivial⟩).symm

theorem indent_next_punct (hk : k.Between) (hdepth : k.indent = UInt32.ofNat depth)
    (p : JsonPunct) (hwithin : k.Within [p.code]) :
    (k.next p.code).indent = UInt32.ofNat (depthAfter k.state depth (.punct p)) := by
  obtain ⟨indent, state⟩ := k
  cases (show indent = UInt32.ofNat depth from hdepth)
  simp only [Control.Between, List.mem_cons, List.not_mem_nil, or_false] at hk
  rcases hk with rfl | rfl | rfl
  · cases p with
    | openBracket | openBrace => exact (UInt32.ofNat_add depth 1).symm
    | closeBracket | closeBrace =>
      cases depth with
      | zero => exact absurd rfl (hwithin.1 (by decide) rfl)
      | succ depth =>
        show UInt32.ofNat (depth + 1) - 1 = UInt32.ofNat depth
        rw [UInt32.ofNat_add]
        exact UInt32.add_sub_cancel _ _
    | colon | comma => rfl
  · cases p <;> rfl
  · cases p <;> rfl

theorem exists_passes_of_laid (hk : k.Between) {s : JsonString}
    (h : Laid tabs indentSize k (.string s)) : ∃ state', passes k.state s = some state' :=
  exists_passes_of_spells hk ((spells_laid_iff h).mpr (Lexis.spells_text json.noGap []))

theorem indent_depthAfter (hk : k.Between) (hdepth : k.indent = UInt32.ofNat depth)
    (hlaid : Laid tabs indentSize k t) (hwithin : k.Within t.raw) :
    (k.after t.raw).indent = UInt32.ofNat (depthAfter k.state depth t) := by
  cases t with
  | punct p => exact indent_next_punct hk hdepth p hwithin
  | string s =>
    obtain ⟨state', hpasses⟩ := exists_passes_of_laid hk hlaid
    obtain ⟨hafter, -, -⟩ := after_string hk hpasses
    show (k.after s.raw).indent = _
    rw [hafter]
    exact hdepth
  | literal l =>
    obtain ⟨hafter, -⟩ := after_literal hk l
    show (k.after l.raw).indent = _
    rw [hafter]
    exact hdepth

/-- A text is undisturbed as its first token stays and the rest is undisturbed behind it. -/
theorem undisturbed_cons_iff (hk : k.Between) (hdepth : k.indent = UInt32.ofNat depth) :
    Undisturbed k.state depth (t :: ts) ↔
      Laid tabs indentSize k t ∧ k.Within t.raw ∧
        Undisturbed (k.after t.raw).state (depthAfter k.state depth t) ts := by
  cases t with
  | punct p =>
    rw [undisturbed_punct_iff hk hdepth]
    exact (and_iff_right (laid_punct hk p)).symm
  | string s =>
    rw [Undisturbed]
    constructor
    · rintro ⟨state', hpasses, h⟩
      obtain ⟨hafter, -, hwithin⟩ := after_string hk hpasses
      refine ⟨laid_string hk hpasses, hwithin, ?_⟩
      show Undisturbed (k.after s.raw).state _ _
      rw [hafter]
      exact h
    · rintro ⟨hlaid, -, h⟩
      obtain ⟨state', hpasses⟩ := exists_passes_of_laid hk hlaid
      obtain ⟨hafter, -, -⟩ := after_string hk hpasses
      have h : Undisturbed (k.after s.raw).state depth ts := h
      rw [hafter] at h
      exact ⟨state', hpasses, h⟩
  | literal l =>
    obtain ⟨hafter, hwithin⟩ := after_literal hk l
    rw [Undisturbed]
    have h : Undisturbed (k.after l.raw).state depth ts ↔ Undisturbed k.state depth ts := by
      rw [hafter]
    exact ⟨fun hts => ⟨laid_literal hk l, hwithin, h.mpr hts⟩, fun hts => h.mp hts.2.2⟩

theorem text_cons (last g : json.Gap) (gs : List (json.Gap × JsonToken)) :
    json.text last ((g, t) :: gs) = g.1 ++ (t.raw ++ json.text last gs) := rfl

variable (tabs indentSize)

/-- The tokens stay the same, and brackets find a container to close, exactly in the texts that are
undisturbed. -/
theorem spells_written_iff (last : json.Gap) (gs : List (json.Gap × JsonToken)) (hk : k.Between)
    (hdepth : k.indent = UInt32.ofNat depth) :
    (json.Spells (gs.map Prod.snd) (k.written tabs indentSize (json.text last gs)) ∧
      k.Within (json.text last gs)) ↔ Undisturbed k.state depth (gs.map Prod.snd) := by
  induction gs generalizing k depth with
  | nil =>
    rw [Lexis.text, written_gap hk]
    refine ⟨fun _ => trivial, fun _ => ⟨Lexis.spells_nil_iff.mpr (keptGap k.state last).2, ?_⟩⟩
    exact (after_gap hk last).2
  | cons p gs ih =>
    obtain ⟨g, t⟩ := p
    obtain ⟨hafter, hwithin⟩ := after_gap hk g
    rw [List.map_cons, text_cons, written_append, hafter, written_gap hk,
      Lexis.spells_gap_append_iff, written_append, within_append_iff, hafter, within_append_iff,
      undisturbed_cons_iff hk hdepth]
    constructor
    · rintro ⟨hspells, -, ht, hgs⟩
      have hlaid : Laid tabs indentSize k t := by
        cases t with
        | punct p => exact laid_punct hk p
        | literal l => exact laid_literal hk l
        | string s =>
          obtain ⟨state', hpasses⟩ := exists_passes_of_spells hk hspells
          exact laid_string hk hpasses
      refine ⟨hlaid, ht, (ih hlaid.1 (indent_depthAfter hk hdepth hlaid ht)).mp ⟨?_, hgs⟩⟩
      exact (spells_laid_iff hlaid).mp hspells
    · rintro ⟨hlaid, ht, h⟩
      obtain ⟨hspells, hgs⟩ := (ih hlaid.1 (indent_depthAfter hk hdepth hlaid ht)).mpr h
      exact ⟨(spells_laid_iff hlaid).mpr hspells, hwithin, ht, hgs⟩

/-- The blanks that are left are left again. -/
theorem written_keptGap (hk : k.Between) (g : json.Gap) (bs : Bytes) :
    k.written tabs indentSize ((keptGap k.state g).1 ++ bs) =
      (keptGap k.state g).1 ++ k.written tabs indentSize bs := by
  rw [written_append, (after_gap hk _).1, written_gap hk]
  congr 1
  rw [keptGap_val, keptGap_val]
  split <;> rfl

/-- What was printed is printed as it is. -/
theorem written_written (last : json.Gap) (gs : List (json.Gap × JsonToken)) (hk : k.Between)
    (hdepth : k.indent = UInt32.ofNat depth) (h : Undisturbed k.state depth (gs.map Prod.snd)) :
    k.written tabs indentSize (k.written tabs indentSize (json.text last gs)) =
      k.written tabs indentSize (json.text last gs) := by
  induction gs generalizing k depth with
  | nil =>
    have hlast := written_keptGap tabs indentSize hk last []
    rw [List.append_nil] at hlast
    rw [Lexis.text, written_gap hk, hlast]
    exact List.append_nil _
  | cons p gs ih =>
    obtain ⟨g, t⟩ := p
    rw [List.map_cons] at h
    obtain ⟨hlaid, hwithin, hgs⟩ := (undisturbed_cons_iff hk hdepth).mp h
    rw [text_cons, written_append, (after_gap hk g).1, written_gap hk,
      written_keptGap tabs indentSize hk, written_append k t.raw, written_laid hk hlaid,
      ih hlaid.1 (indent_depthAfter hk hdepth hlaid hwithin) hgs]

end Tokens

/-! ### The printer on a text -/

theorem prettify_eq (text : Bytes) :
    prettify tabs indentSize text = Control.written tabs indentSize ⟨0, .normal⟩ text := by
  rw [prettify, foldl_prettifyChar]
  rfl

theorem neverBelowZero_iff (text : Bytes) :
    NeverBelowZero tabs indentSize text ↔ Control.Within ⟨0, .normal⟩ text := by
  have hwithin (k : Control) : k.Within text ↔ ∀ before c after, text = before ++ c :: after →
      c = 0x5D ∨ c = 0x7D → (k.after before).state = .normal → (k.after before).indent ≠ 0 := by
    induction text generalizing k with
    | nil =>
      refine iff_of_true trivial fun before c after h => ?_
      exact absurd h.symm (List.append_ne_nil_of_right_ne_nil _ (List.cons_ne_nil _ _))
    | cons d text ih =>
      rw [Control.Within, ih]
      constructor
      · rintro ⟨hd, h⟩ before c after heq
        cases before with
        | nil =>
          cases heq
          exact hd
        | cons b before =>
          cases heq
          exact h before c after rfl
      · intro h
        exact ⟨h [] d text rfl, fun before c after heq => h (d :: before) c after (heq ▸ rfl)⟩
  rw [hwithin, NeverBelowZero]
  simp only [foldl_prettifyChar]
  rfl

/-- The printed text is one of the same document, it stays the same if it is printed again, and the
counter of brackets stays above zero. -/
def PrettifiesWell (tabs : Bool) (indentSize : UInt32) (d : JsonDoc) (text : Bytes) : Prop :=
  d.IsText (prettify tabs indentSize text) ∧
    prettify tabs indentSize (prettify tabs indentSize text) = prettify tabs indentSize text ∧
    NeverBelowZero tabs indentSize text

/-- A text is printed well exactly if nothing is read as something else behind an escaped quote. -/
theorem prettifiesWell_iff (tabs : Bool) (indentSize : UInt32) (d : JsonDoc)
    (text : {text : Bytes // d.IsText text}) :
    PrettifiesWell tabs indentSize d text.1 ↔ Undisturbed .normal 0 d.tokens := by
  obtain ⟨text, last, gs, hgs, rfl⟩ := text
  have hk : Control.Between ⟨0, .normal⟩ := .head _
  rw [PrettifiesWell, JsonDoc.IsText, prettify_eq, prettify_eq, neverBelowZero_iff]
  have hiff := spells_written_iff tabs indentSize last gs hk rfl
  have hprinted := written_written tabs indentSize last gs hk rfl
  rw [hgs] at hiff hprinted
  constructor
  · rintro ⟨hspells, -, hwithin⟩
    exact hiff.mp ⟨hspells, hwithin⟩
  · intro h
    obtain ⟨hspells, hwithin⟩ := hiff.mpr h
    exact ⟨hspells, hprinted h, hwithin⟩

/-- The text `"\" "`: the string is a quote and a blank. -/
theorem not_prettifiesWell_blank :
    ¬ PrettifiesWell false 3 (.string ⟨[.escaped quote (by decide), .plain space rfl], by decide⟩)
      [quote, backslash, quote, space, quote] := by
  rintro ⟨h, -, -⟩
  obtain ⟨g, rest, hprinted, -⟩ := Lexis.spells_cons_iff.mp h
  have hlength := congrArg List.length hprinted
  rw [List.length_append, List.length_append] at hlength
  have hraw : 5 + (g.1.length + rest.length) = 4 := by
    rw [← show (prettify false 3 [quote, backslash, quote, space, quote]).length = 4 from rfl,
      hlength, Nat.add_left_comm]
    rfl
  omega

/-! ### Texts without escaped quotes -/

section NoEscapedQuotes

/-- No escaped quotes in a string. -/
def NoEscapedQuotes (s : JsonString) : Prop := ∀ c ∈ s.chars, c.raw ≠ [backslash, quote]

theorem passes_of_noEscapedQuotes {s : JsonString} (h : NoEscapedQuotes s) :
    passes .normal s = some .normal := by
  have hchars : ∀ cs : List JsonChar, (∀ c ∈ cs, c.raw ≠ [backslash, quote]) →
      cs.foldlM passChar .string = some .string := by
    intro cs hcs
    induction cs with
    | nil => rfl
    | cons c cs ih =>
      have hc : passChar .string c = some .string := by
        cases c with
        | escaped e he =>
          have he : e ≠ quote := fun h => hcs _ List.mem_cons_self (h ▸ rfl)
          rw [passChar, if_neg he]
        | plain | unicode => rfl
      rw [List.foldlM_cons, hc]
      exact ih fun d hd => hcs d (List.mem_cons_of_mem _ hd)
  rw [passes]
  exact congrArg (·.bind Reading.closed) (hchars _ h)

variable {ts : List JsonToken} {depth : ℕ}

theorem undisturbed_string_iff {s : JsonString} (h : NoEscapedQuotes s) :
    Undisturbed .normal depth (.string s :: ts) ↔ Undisturbed .normal depth ts := by
  rw [Undisturbed, passes_of_noEscapedQuotes h]
  exact ⟨fun ⟨_, hs, h⟩ => Option.some.inj hs ▸ h, fun h => ⟨_, rfl, h⟩⟩

theorem undisturbed_close_iff (hdepth : depth + 1 < 2 ^ 32) {p : JsonPunct}
    (hp : p = .closeBracket ∨ p = .closeBrace) :
    Undisturbed .normal (depth + 1) (.punct p :: ts) ↔ Undisturbed .normal depth ts := by
  have hne : (depth + 1) % 2 ^ 32 ≠ 0 := by
    rw [Nat.mod_eq_of_lt hdepth]
    exact Nat.succ_ne_zero depth
  rcases hp with rfl | rfl <;> exact and_iff_right hne

mutual

/-- What stands behind a document without escaped quotes is undisturbed as what stands before. -/
theorem undisturbed_tokens_iff (d : JsonDoc) (depth : ℕ) (ts : List JsonToken)
    (hd : ∀ s, .string s ∈ d.tokens → NoEscapedQuotes s) (hdepth : depth + d.nesting < 2 ^ 32) :
    Undisturbed .normal depth (d.tokens ++ ts) ↔ Undisturbed .normal depth ts := by
  match d with
  | .literal l => rfl
  | .string s => exact undisturbed_string_iff (hd s (List.mem_singleton.mpr rfl))
  | .array items =>
    rw [JsonDoc.nesting] at hdepth
    have hitems := undisturbed_items_iff items (depth + 1) (.punct .closeBracket :: ts)
      (fun s hs => hd s (List.mem_cons_of_mem _ (List.mem_append_left _ hs))) (by omega)
    rw [JsonDoc.tokens, List.cons_append, List.append_assoc]
    exact hitems.trans (undisturbed_close_iff (by omega) (.inl rfl))
  | .object members =>
    rw [JsonDoc.nesting] at hdepth
    have hmembers := undisturbed_members_iff members (depth + 1) (.punct .closeBrace :: ts)
      (fun s hs => hd s (List.mem_cons_of_mem _ (List.mem_append_left _ hs))) (by omega)
    rw [JsonDoc.tokens, List.cons_append, List.append_assoc]
    exact hmembers.trans (undisturbed_close_iff (by omega) (.inr rfl))

theorem undisturbed_items_iff (items : List JsonDoc) (depth : ℕ) (ts : List JsonToken)
    (hd : ∀ s, .string s ∈ itemTokens items → NoEscapedQuotes s)
    (hdepth : depth + itemNesting items < 2 ^ 32) :
    Undisturbed .normal depth (itemTokens items ++ ts) ↔ Undisturbed .normal depth ts := by
  match items with
  | [] => rfl
  | [d] =>
    rw [itemNesting] at hdepth
    exact undisturbed_tokens_iff d depth ts hd (by omega)
  | d :: d' :: ds =>
    rw [itemNesting] at hdepth
    have hitem := undisturbed_tokens_iff d depth (.punct .comma :: (itemTokens (d' :: ds) ++ ts))
      (fun s hs => hd s (List.mem_append_left _ hs)) (by omega)
    have hitems := undisturbed_items_iff (d' :: ds) depth ts
      (fun s hs => hd s (List.mem_append_right _ (List.mem_cons_of_mem _ hs))) (by omega)
    rw [itemTokens_cons_cons, List.append_assoc]
    exact hitem.trans hitems

theorem undisturbed_members_iff (members : List (JsonString × JsonDoc)) (depth : ℕ)
    (ts : List JsonToken) (hd : ∀ s, .string s ∈ memberTokens members → NoEscapedQuotes s)
    (hdepth : depth + memberNesting members < 2 ^ 32) :
    Undisturbed .normal depth (memberTokens members ++ ts) ↔ Undisturbed .normal depth ts := by
  match members with
  | [] => rfl
  | [(k, d)] =>
    rw [memberNesting] at hdepth
    have hvalue := undisturbed_tokens_iff d depth ts
      (fun s hs => hd s (List.mem_cons_of_mem _ (List.mem_cons_of_mem _ hs))) (by omega)
    exact (undisturbed_string_iff (hd k List.mem_cons_self)).trans hvalue
  | (k, d) :: m :: ms =>
    rw [memberNesting] at hdepth
    have hvalue := undisturbed_tokens_iff d depth (.punct .comma :: (memberTokens (m :: ms) ++ ts))
      (fun s hs => hd s (List.mem_cons_of_mem _ (List.mem_cons_of_mem _
        (List.mem_append_left _ hs)))) (by omega)
    have hmembers := undisturbed_members_iff (m :: ms) depth ts
      (fun s hs => hd s (List.mem_cons_of_mem _ (List.mem_cons_of_mem _
        (List.mem_append_right _ (List.mem_cons_of_mem _ hs))))) (by omega)
    rw [memberTokens_cons_cons, List.cons_append, List.cons_append, List.append_assoc]
    exact (undisturbed_string_iff (hd k List.mem_cons_self)).trans (hvalue.trans hmembers)

end

/-- A text without escaped quotes is undisturbed, if its containers are not too deep. -/
theorem undisturbed_of_noEscapedQuotes (d : JsonDoc)
    (hd : ∀ s, .string s ∈ d.tokens → NoEscapedQuotes s) (hdepth : d.nesting < 2 ^ 32) :
    Undisturbed .normal 0 d.tokens := by
  have h : Undisturbed .normal 0 (d.tokens ++ []) ↔ Undisturbed .normal 0 [] :=
    undisturbed_tokens_iff d 0 [] hd ((Nat.zero_add _).trans_lt hdepth)
  rw [List.append_nil] at h
  exact h.mpr trivial

end NoEscapedQuotes

end Yalantinglibs.Iguana
