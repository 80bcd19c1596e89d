import Mathlib.Data.List.TakeWhile
import Yalantinglibs.Data.Ascii

/-!
# The text format for the exposition of metrics

A text is made of lines. A line is blank, a comment, or a sample: a name, labels in braces with
quoted values, a number, and possibly a time. In a quoted value a backslash stands in front of a
backslash, of a quotation mark, and of the letter that stands for a line feed.

## Main definitions

* `Sample` — a sample, of which the number is left as it is written
* `readSample`, `parseLine`, `parseText` — the grammar
* `escape`, `renderLabels`, `Written` — samples as they are written

## Main results

* `parseText_flatMap` — samples that are written are read back
* `wellFormed_of_parseText` — what is read has a name and a number
* `parseText_append_iff` — lines in front of a text add no sample if and only if they are comments
* `flatMap_inj` — samples are told apart by what is written for them
-/

set_option autoImplicit false

namespace Yalantinglibs.ExpositionText

/-! ### Bytes -/

def newline : UInt8 := 0x0A
def comma : UInt8 := 0x2C
def openBrace : UInt8 := 0x7B
def closeBrace : UInt8 := 0x7D
def equalSign : UInt8 := 0x3D
def numberSign : UInt8 := 0x23

/-- A space or a tab. -/
def isBlank (b : UInt8) : Bool := b = space || b = 0x09

def isLetter (b : UInt8) : Bool := (0x41 ≤ b && b ≤ 0x5A) || (0x61 ≤ b && b ≤ 0x7A)

def isLabelChar (b : UInt8) : Bool := isLetter b || isDigit b || b = 0x5F

def isNameChar (b : UInt8) : Bool := isLabelChar b || b = 0x3A

/-- An identifier, of which the first character is no digit. -/
def validIdentifier (isChar : UInt8 → Bool) (bs : Bytes) : Bool :=
  bs.all isChar && bs.head?.any fun b => !isDigit b

def validName (bs : Bytes) : Bool := validIdentifier isNameChar bs

def validLabelName (bs : Bytes) : Bool := validIdentifier isLabelChar bs

def skipBlanks (text : Bytes) : Bytes := text.dropWhile isBlank

/-- A character behind blanks. -/
def expect (b : UInt8) (text : Bytes) : Option Bytes :=
  match skipBlanks text with
  | [] => none
  | c :: rest => if c = b then some rest else none

/-! ### Numbers -/

/-- A sign is passed. -/
def dropSign (text : Bytes) : Bytes :=
  match text with
  | [] => []
  | b :: rest => if b = 0x2B || b = 0x2D then rest else b :: rest

def isExponent (text : Bytes) : Bool :=
  match text with
  | [] => true
  | b :: rest =>
    (b = 0x65 || b = 0x45) && !(dropSign rest).isEmpty && (dropSign rest).all isDigit

/-- Digits, with a point among them or not, and possibly an exponent. -/
def isDecimal (text : Bytes) : Bool :=
  let digits := text.takeWhile isDigit
  match text.dropWhile isDigit with
  | [] => !digits.isEmpty
  | b :: rest =>
    if b = 0x2E then
      (!digits.isEmpty || !(rest.takeWhile isDigit).isEmpty) && isExponent (rest.dropWhile isDigit)
    else !digits.isEmpty && isExponent (b :: rest)

def toLower (b : UInt8) : UInt8 := if 0x41 ≤ b && b ≤ 0x5A then b + 0x20 else b

/-- `nan`, `inf` and `infinity`, in any case. -/
def isNamed (text : Bytes) : Bool :=
  text.map toLower = [0x6E, 0x61, 0x6E] || (dropSign text).map toLower = [0x69, 0x6E, 0x66] ||
    (dropSign text).map toLower = [0x69, 0x6E, 0x66, 0x69, 0x6E, 0x69, 0x74, 0x79]

def isFloat (text : Bytes) : Bool := isDecimal (dropSign text) || isNamed text

/-- Milliseconds, or none. -/
def isTimestamp (text : Bytes) : Bool :=
  text.isEmpty || (!(dropSign text).isEmpty && (dropSign text).all isDigit)

/-! ### Samples -/

structure Sample where
  name : Bytes
  labels : List (Bytes × Bytes)
  value : Bytes
  deriving DecidableEq

/-- What stands behind a backslash. -/
def unescape (b : UInt8) : Option UInt8 :=
  if b = backslash then some backslash
  else if b = quote then some quote
  else if b = 0x6E then some newline
  else none

/-- A quoted value up to the quotation mark at its end, and what comes behind that. -/
def readQuoted : Bytes → Option (Bytes × Bytes)
  | [] => none
  | b :: rest =>
    if b = quote then some ([], rest)
    else if b = backslash then
      match rest with
      | [] => none
      | c :: rest =>
        (unescape c).bind fun e => (readQuoted rest).map fun (value, rest) => (e :: value, rest)
    else (readQuoted rest).map fun (value, rest) => (b :: value, rest)

/-- One label. -/
def readLabel (text : Bytes) : Option ((Bytes × Bytes) × Bytes) :=
  let text := skipBlanks text
  let name := text.takeWhile isLabelChar
  if validLabelName name then
    (expect equalSign (text.dropWhile isLabelChar)).bind fun rest =>
      (expect quote rest).bind fun rest =>
        (readQuoted rest).map fun (value, rest) => ((name, value), rest)
  else none

/-- The labels up to the closing brace. There may be a comma behind the last one. -/
def readLabels : ℕ → Bytes → Option (List (Bytes × Bytes) × Bytes)
  | 0, _ => none
  | fuel + 1, text =>
    match expect closeBrace text with
    | some rest => some ([], rest)
    | none =>
      (readLabel text).bind fun (label, rest) =>
        match expect comma rest with
        | some rest => (readLabels fuel rest).map fun (labels, rest) => (label :: labels, rest)
        | none => (expect closeBrace rest).map fun rest => ([label], rest)

/-- Labels in braces, or none. -/
def readBraces (text : Bytes) : Option (List (Bytes × Bytes) × Bytes) :=
  match expect openBrace text with
  | some rest => readLabels (rest.length + 1) rest
  | none => some ([], text)

def readSample (line : Bytes) : Option Sample :=
  let name := line.takeWhile isNameChar
  if validName name then
    (readBraces (line.dropWhile isNameChar)).bind fun (labels, rest) =>
      let rest := skipBlanks rest
      let value := rest.takeWhile fun b => !isBlank b
      let rest := skipBlanks (rest.dropWhile fun b => !isBlank b)
      if isFloat value && isTimestamp rest then some ⟨name, labels, value⟩ else none
  else none

/-! ### Lines -/

/-- A line that is blank, or a comment. -/
def isComment (line : Bytes) : Bool :=
  match skipBlanks line with
  | [] => true
  | b :: _ => b = numberSign

def parseLine (line : Bytes) : Option (List Sample) :=
  if isComment line then some [] else (readSample (skipBlanks line)).map fun s => [s]

/-- What stands between line feeds: one part more than there are line feeds. -/
def splitLines : Bytes → List Bytes
  | [] => [[]]
  | b :: rest =>
    if b = newline then [] :: splitLines rest else (splitLines rest).modifyHead fun l => b :: l

/-- The samples of the lines, where nothing may stand behind the last line feed. -/
def parseLines : List Bytes → Option (List Sample)
  | [] => none
  | [line] => if line.isEmpty then some [] else none
  | line :: lines =>
    (parseLine line).bind fun samples => (parseLines lines).map fun more => samples ++ more

def parseText (text : Bytes) : Option (List Sample) := parseLines (splitLines text)

/-! ### Writing -/

def escapeByte (b : UInt8) : Bytes :=
  if b = backslash then [backslash, backslash]
  else if b = quote then [backslash, quote]
  else if b = newline then [backslash, 0x6E]
  else [b]

def escape (value : Bytes) : Bytes := value.flatMap escapeByte

def renderLabel (label : Bytes × Bytes) : Bytes :=
  label.1 ++ equalSign :: quote :: (escape label.2 ++ [quote])

/-- Labels with commas between them. -/
def renderLabels : List (Bytes × Bytes) → Bytes
  | [] => []
  | [label] => renderLabel label
  | label :: labels => renderLabel label ++ comma :: renderLabels labels

/-- A sample as it is written: with blanks in front of the brace, where there are labels. -/
structure Written where
  gap : Bytes := []
  sample : Sample

/-- The line of a sample up to its number. -/
def Written.prelude (w : Written) : Bytes :=
  w.sample.name ++
    if w.sample.labels = [] then [space]
    else w.gap ++ openBrace :: (renderLabels w.sample.labels ++ [closeBrace, space])

def Written.line (w : Written) : Bytes := w.prelude ++ w.sample.value

def Written.text (w : Written) : Bytes := w.line ++ [newline]

/-- No blank and no line feed. -/
def isToken (value : Bytes) : Bool := value.all fun b => !isBlank b && b != newline

/-- A name and a number, and what is written of the labels is read as it is meant. -/
structure Written.WellFormed (w : Written) : Prop where
  name : validName w.sample.name
  labels : ∀ label ∈ w.sample.labels, validLabelName label.1
  value : isFloat w.sample.value
  token : isToken w.sample.value
  gap : w.gap.all isBlank

/-! ### Characters -/

theorem isLabelChar_of_mem {bs : Bytes} (h : validLabelName bs) {b : UInt8} (hb : b ∈ bs) :
    isLabelChar b := by
  rw [validLabelName, validIdentifier, Bool.and_eq_true] at h
  exact List.all_eq_true.mp h.1 b hb

theorem isNameChar_of_mem {bs : Bytes} (h : validName bs) {b : UInt8} (hb : b ∈ bs) :
    isNameChar b := by
  rw [validName, validIdentifier, Bool.and_eq_true] at h
  exact List.all_eq_true.mp h.1 b hb

/-- A character of a name is no blank. -/
theorem isBlank_eq_false {b : UInt8} (h : isNameChar b) : isBlank b = false := by
  by_contra hblank
  rw [Bool.not_eq_false, isBlank, Bool.or_eq_true, decide_eq_true_eq, decide_eq_true_eq] at hblank
  rcases hblank with rfl | rfl <;> exact absurd h (by decide)

/-- The characters up to the first one that is none of the kind. -/
theorem takeWhile_append_cons {p : UInt8 → Bool} {bs rest : Bytes} {b : UInt8}
    (hbs : ∀ a ∈ bs, p a) (hb : p b = false) : (bs ++ b :: rest).takeWhile p = bs := by
  rw [List.takeWhile_append_of_pos hbs, List.takeWhile_cons_of_neg (by simp [hb]), List.append_nil]

theorem dropWhile_append_cons {p : UInt8 → Bool} {bs rest : Bytes} {b : UInt8}
    (hbs : ∀ a ∈ bs, p a) (hb : p b = false) : (bs ++ b :: rest).dropWhile p = b :: rest := by
  rw [List.dropWhile_append_of_pos hbs, List.dropWhile_cons_of_neg (by simp [hb])]

theorem skipBlanks_cons {b : UInt8} {rest : Bytes} (hb : isBlank b = false) :
    skipBlanks (b :: rest) = b :: rest :=
  List.dropWhile_cons_of_neg (by simp [hb])

theorem expect_self {b : UInt8} {rest : Bytes} (hb : isBlank b = false) :
    expect b (b :: rest) = some rest := by
  rw [expect, skipBlanks_cons hb]
  exact if_pos rfl

theorem expect_of_ne {b c : UInt8} {rest : Bytes} (hc : isBlank c = false) (hne : c ≠ b) :
    expect b (c :: rest) = none := by
  rw [expect, skipBlanks_cons hc]
  exact if_neg hne

/-! ### Labels are read back -/

theorem readQuoted_cons (b : UInt8) (rest : Bytes) :
    readQuoted (b :: rest) =
      if b = quote then some ([], rest)
      else if b = backslash then
        match rest with
        | [] => none
        | c :: rest =>
          (unescape c).bind fun e => (readQuoted rest).map fun (value, rest) => (e :: value, rest)
      else (readQuoted rest).map fun (value, rest) => (b :: value, rest) := by
  cases rest <;> rfl

theorem readQuoted_escape (value rest : Bytes) :
    readQuoted (escape value ++ quote :: rest) = some (value, rest) := by
  induction value with
  | nil => exact (readQuoted_cons quote rest).trans (if_pos rfl)
  | cons b value ih =>
    have hcons : escape (b :: value) = escapeByte b ++ escape value := List.flatMap_cons
    rw [hcons, escapeByte]
    split_ifs with hback hquote hnewline
    · rw [hback]
      exact congrArg (Option.map _) ih
    · rw [hquote]
      exact congrArg (Option.map _) ih
    · rw [hnewline]
      exact congrArg (Option.map _) ih
    · rw [List.singleton_append, List.cons_append, readQuoted_cons, if_neg hquote, if_neg hback, ih]
      rfl

theorem readLabel_renderLabel {label : Bytes × Bytes} (h : validLabelName label.1) (rest : Bytes) :
    readLabel (renderLabel label ++ rest) = some (label, rest) := by
  have hchars : ∀ b ∈ label.1, isLabelChar b := fun b hb => isLabelChar_of_mem h hb
  have htext : renderLabel label ++ rest =
      label.1 ++ equalSign :: quote :: (escape label.2 ++ quote :: rest) := by
    simp [renderLabel]
  have hskip : skipBlanks (renderLabel label ++ rest) = renderLabel label ++ rest := by
    rw [htext]
    cases hname : label.1 with
    | nil => rfl
    | cons b bs =>
      have hb : isLabelChar b := hchars b (hname ▸ List.mem_cons_self)
      exact skipBlanks_cons (isBlank_eq_false (Bool.or_eq_true_iff.mpr (.inl hb)))
  rw [readLabel, hskip, htext, takeWhile_append_cons hchars (by decide),
    dropWhile_append_cons hchars (by decide)]
  dsimp only
  rw [if_pos h, expect_self (by decide), Option.bind_some, expect_self (by decide),
    Option.bind_some, readQuoted_escape]
  rfl

theorem renderLabels_cons (label : Bytes × Bytes) {labels : List (Bytes × Bytes)}
    (h : labels ≠ []) :
    renderLabels (label :: labels) = renderLabel label ++ comma :: renderLabels labels := by
  cases labels with
  | nil => exact absurd rfl h
  | cons l ls => rfl

/-- A name of a label does not begin with a brace, and is not empty. -/
theorem expect_renderLabel {label : Bytes × Bytes} (h : validLabelName label.1) (rest : Bytes) :
    expect closeBrace (renderLabel label ++ rest) = none := by
  cases hname : label.1 with
  | nil =>
    rw [hname] at h
    exact absurd h (by decide)
  | cons b bs =>
    have hb : isLabelChar b := isLabelChar_of_mem h (hname ▸ List.mem_cons_self)
    have hblank : isBlank b = false := isBlank_eq_false (Bool.or_eq_true_iff.mpr (.inl hb))
    rw [renderLabel, hname]
    exact expect_of_ne hblank fun heq => absurd (heq ▸ hb) (by decide)

theorem readLabels_renderLabels {labels : List (Bytes × Bytes)}
    (h : ∀ label ∈ labels, validLabelName label.1) (rest : Bytes) {fuel : ℕ}
    (hfuel : labels.length < fuel) :
    readLabels fuel (renderLabels labels ++ closeBrace :: rest) = some (labels, rest) := by
  induction labels generalizing fuel with
  | nil =>
    obtain ⟨fuel, rfl⟩ := Nat.exists_eq_succ_of_ne_zero hfuel.ne'
    rfl
  | cons label labels ih =>
    obtain ⟨fuel, rfl⟩ := Nat.exists_eq_succ_of_ne_zero (Nat.ne_zero_of_lt hfuel)
    have hlabel : validLabelName label.1 := h label List.mem_cons_self
    by_cases hnil : labels = []
    · rw [hnil, readLabels, renderLabels, expect_renderLabel hlabel,
        readLabel_renderLabel hlabel]
      rfl
    · have htext : renderLabels (label :: labels) ++ closeBrace :: rest =
          renderLabel label ++ comma :: (renderLabels labels ++ closeBrace :: rest) := by
        rw [renderLabels_cons label hnil]
        simp
      rw [htext, readLabels, expect_renderLabel hlabel, readLabel_renderLabel hlabel]
      dsimp only [Option.bind_some]
      rw [expect_self (by decide)]
      dsimp only
      rw [ih (fun l hl => h l (List.mem_cons_of_mem _ hl)) (Nat.lt_of_succ_lt_succ hfuel)]
      rfl

theorem length_le_renderLabels (labels : List (Bytes × Bytes)) :
    labels.length ≤ (renderLabels labels).length := by
  induction labels with
  | nil => exact le_rfl
  | cons label labels ih =>
    by_cases hnil : labels = []
    · simp only [hnil, renderLabels, renderLabel, List.length_append, List.length_cons]
      omega
    · simp only [renderLabels_cons label hnil, List.length_append, List.length_cons]
      omega

/-! ### Samples are read back -/

/-- A token is not cut, and nothing is left behind it. -/
theorem takeWhile_of_isToken {value : Bytes} (h : isToken value) :
    value.takeWhile (fun b => !isBlank b) = value ∧
      value.dropWhile (fun b => !isBlank b) = [] := by
  have hall : ∀ b ∈ value, (!isBlank b) = true := fun b hb =>
    (Bool.and_eq_true_iff.mp (List.all_eq_true.mp h b hb)).1
  exact ⟨List.takeWhile_eq_self_iff.mpr hall, List.dropWhile_eq_nil_iff.mpr hall⟩

theorem skipBlanks_of_isToken {value : Bytes} (h : isToken value) : skipBlanks value = value := by
  cases value with
  | nil => rfl
  | cons b bs =>
    have hb := (Bool.and_eq_true_iff.mp (List.all_eq_true.mp h b List.mem_cons_self)).1
    exact skipBlanks_cons (Bool.not_eq_true' _ ▸ hb)

theorem skipBlanks_append {gap : Bytes} (hgap : gap.all isBlank) (text : Bytes) :
    skipBlanks (gap ++ text) = skipBlanks text :=
  List.dropWhile_append_of_pos (List.all_eq_true.mp hgap)

variable {w : Written}

theorem readBraces_of_labels (hw : w.WellFormed) :
    readBraces (w.gap ++ openBrace :: (renderLabels w.sample.labels ++
        closeBrace :: space :: w.sample.value)) =
      some (w.sample.labels, space :: w.sample.value) := by
  have hopen : expect openBrace (w.gap ++ openBrace :: (renderLabels w.sample.labels ++
      closeBrace :: space :: w.sample.value)) =
      some (renderLabels w.sample.labels ++ closeBrace :: space :: w.sample.value) := by
    rw [expect, skipBlanks_append hw.gap]
    rfl
  rw [readBraces, hopen]
  dsimp only
  refine readLabels_renderLabels hw.labels _ ?_
  have hle := length_le_renderLabels w.sample.labels
  simp only [List.length_append]
  omega

/-- Without labels no brace comes, for a number does not begin with one. -/
theorem readBraces_of_no_labels (hw : w.WellFormed) :
    readBraces (space :: w.sample.value) = some ([], space :: w.sample.value) := by
  have hexpect : expect openBrace (space :: w.sample.value) = none := by
    have hskip : skipBlanks (space :: w.sample.value) = w.sample.value :=
      skipBlanks_of_isToken hw.token
    rw [expect, hskip]
    cases hvalue : w.sample.value with
    | nil => rfl
    | cons b bs =>
      refine if_neg fun hb => ?_
      have hfloat := hw.value
      rw [hvalue, hb] at hfloat
      exact absurd hfloat (by simp [isFloat, dropSign, isDecimal, isNamed, openBrace, isDigit, toLower])
  rw [readBraces, hexpect]

theorem readSample_line (hw : w.WellFormed) : readSample w.line = some w.sample := by
  have hchars : ∀ b ∈ w.sample.name, isNameChar b := fun b hb => isNameChar_of_mem hw.name hb
  -- what stands behind the name begins with a character that belongs to no name
  have hkey : ∀ (b : UInt8) (rest : Bytes), isNameChar b = false →
      readBraces (b :: rest) = some (w.sample.labels, space :: w.sample.value) →
      readSample (w.sample.name ++ b :: rest) = some w.sample := by
    intro b rest hb hbraces
    have hskip : skipBlanks (space :: w.sample.value) = w.sample.value :=
      skipBlanks_of_isToken hw.token
    rw [readSample, takeWhile_append_cons hchars hb, dropWhile_append_cons hchars hb]
    dsimp only
    rw [if_pos hw.name, hbraces, Option.bind_some]
    dsimp only
    rw [hskip, (takeWhile_of_isToken hw.token).1, (takeWhile_of_isToken hw.token).2]
    exact if_pos (Bool.and_eq_true_iff.mpr ⟨hw.value, rfl⟩)
  rw [Written.line, Written.prelude, List.append_assoc]
  split_ifs with hlabels
  · refine hkey space _ (by decide) ?_
    rw [hlabels]
    exact readBraces_of_no_labels hw
  · have hbraces := readBraces_of_labels hw
    have htext : (w.gap ++ openBrace :: (renderLabels w.sample.labels ++ [closeBrace, space])) ++
        w.sample.value = w.gap ++ openBrace :: (renderLabels w.sample.labels ++
          closeBrace :: space :: w.sample.value) := by
      simp
    rw [htext]
    cases hgap : w.gap with
    | nil =>
      rw [hgap] at hbraces
      exact hkey _ _ (by decide) hbraces
    | cons b bs =>
      rw [hgap] at hbraces
      refine hkey b _ ?_ hbraces
      -- a blank belongs to no name
      by_contra hb
      have hblank := List.all_eq_true.mp hw.gap b (hgap ▸ List.mem_cons_self)
      rw [isBlank_eq_false (Bool.not_eq_false _ ▸ hb)] at hblank
      exact absurd hblank (by decide)

/-! ### Lines are read one by one -/

theorem splitLines_ne_nil (text : Bytes) : splitLines text ≠ [] := by
  induction text with
  | nil => exact List.cons_ne_nil _ _
  | cons b rest ih =>
    rw [splitLines]
    split_ifs
    · exact List.cons_ne_nil _ _
    · exact fun h => ih (List.modifyHead_eq_nil_iff.mp h)

theorem splitLines_append (text rest : Bytes) :
    splitLines (text ++ newline :: rest) = splitLines text ++ splitLines rest := by
  induction text with
  | nil => exact if_pos rfl
  | cons b text ih =>
    rw [List.cons_append, splitLines, splitLines, ih]
    split_ifs
    · rfl
    · cases h : splitLines text with
      | nil => exact absurd h (splitLines_ne_nil text)
      | cons line lines => rfl

theorem splitLines_of_notMem {line : Bytes} (h : newline ∉ line) : splitLines line = [line] := by
  induction line with
  | nil => rfl
  | cons b line ih =>
    have hb : b ≠ newline := fun hb => h (hb ▸ List.mem_cons_self)
    rw [splitLines, if_neg hb, ih fun hline => h (List.mem_cons_of_mem _ hline)]
    rfl

/-- What is put in front of a text stands in its first line. -/
theorem splitLines_append_of_notMem {word : Bytes} (h : newline ∉ word) (text : Bytes) :
    splitLines (word ++ text) = (splitLines text).modifyHead fun line => word ++ line := by
  induction word with
  | nil =>
    rw [List.nil_append]
    cases splitLines text <;> rfl
  | cons b word ih =>
    have hb : b ≠ newline := fun hb => h (hb ▸ List.mem_cons_self)
    rw [List.cons_append, splitLines, if_neg hb, ih fun hword => h (List.mem_cons_of_mem _ hword),
      List.modifyHead_modifyHead]
    rfl

theorem parseLines_cons (line : Bytes) {lines : List Bytes} (h : lines ≠ []) :
    parseLines (line :: lines) =
      (parseLine line).bind fun samples => (parseLines lines).map fun more => samples ++ more := by
  cases lines with
  | nil => exact absurd rfl h
  | cons l ls => rfl

/-- A line adds a sample unless it is a comment. -/
theorem parseLines_cons_of_comment {line : Bytes} (hline : isComment line) {lines : List Bytes}
    (h : lines ≠ []) : parseLines (line :: lines) = parseLines lines := by
  rw [parseLines_cons line h, parseLine, if_pos hline, Option.bind_some]
  exact Option.map_id_apply

/-- The samples of the last lines are the last of all the samples, and are all the samples if and
only if every other line is a comment. -/
theorem parseLines_append {front back : List Bytes} {more samples : List Sample}
    (hback : parseLines back = some more) (h : parseLines (front ++ back) = some samples) :
    ∃ first, samples = first ++ more ∧ (first = [] ↔ ∀ line ∈ front, isComment line) := by
  have hne : back ≠ [] := by
    rintro rfl
    exact absurd hback (by simp [parseLines])
  induction front generalizing samples with
  | nil =>
    rw [List.nil_append, hback, Option.some_inj] at h
    exact ⟨[], h.symm, by simp⟩
  | cons line front ih =>
    have hrest : front ++ back ≠ [] := fun hnil => hne (List.append_eq_nil_iff.mp hnil).2
    rw [List.cons_append] at h
    by_cases hline : isComment line
    · rw [parseLines_cons_of_comment hline hrest] at h
      obtain ⟨first, heq, hfirst⟩ := ih h
      exact ⟨first, heq, by simp [hfirst, hline]⟩
    · rw [parseLines_cons line hrest, parseLine, if_neg hline, Option.bind_eq_some_iff] at h
      obtain ⟨here, hhere, h⟩ := h
      obtain ⟨there, hthere, rfl⟩ := Option.map_eq_some_iff.mp h
      obtain ⟨s, -, rfl⟩ := Option.map_eq_some_iff.mp hhere
      obtain ⟨first, rfl, -⟩ := ih hthere
      exact ⟨s :: first, rfl, by simp [hline]⟩

theorem parseLines_append_iff {front back : List Bytes} {samples more : List Sample}
    (hback : parseLines back = some more) (hlen : samples.length = more.length) :
    parseLines (front ++ back) = some samples ↔
      (∀ line ∈ front, isComment line) ∧ samples = more := by
  constructor
  · intro h
    obtain ⟨first, rfl, hfirst⟩ := parseLines_append hback h
    have hnil : first = [] := by
      rw [List.length_append] at hlen
      exact List.eq_nil_of_length_eq_zero (by omega)
    exact ⟨hfirst.mp hnil, by rw [hnil, List.nil_append]⟩
  · rintro ⟨h, rfl⟩
    induction front with
    | nil => exact hback
    | cons line front ih =>
      have hrest : front ++ back ≠ [] := by
        intro hnil
        rw [(List.append_eq_nil_iff.mp hnil).2] at hback
        exact absurd hback (by simp [parseLines])
      rw [List.cons_append, parseLines_cons_of_comment (h line List.mem_cons_self) hrest]
      exact ih fun l hl => h l (List.mem_cons_of_mem _ hl)

/-! ### Texts of samples -/

theorem newline_notMem_escape (value : Bytes) : newline ∉ escape value := by
  intro h
  obtain ⟨b, -, hb⟩ := List.mem_flatMap.mp h
  rw [escapeByte] at hb
  split_ifs at hb with hback hquote hnewline
  · exact absurd hb (by decide)
  · exact absurd hb (by decide)
  · exact absurd hb (by decide)
  · exact hnewline (List.mem_singleton.mp hb).symm

theorem newline_notMem_renderLabels {labels : List (Bytes × Bytes)}
    (h : ∀ label ∈ labels, validLabelName label.1) : newline ∉ renderLabels labels := by
  have hlabel : ∀ label ∈ labels, newline ∉ renderLabel label := by
    intro label hmem hnewline
    rw [renderLabel, List.mem_append, List.mem_cons, List.mem_cons, List.mem_append,
      List.mem_singleton] at hnewline
    rcases hnewline with hname | heq | heq | hvalue | heq
    · exact absurd (isLabelChar_of_mem (h label hmem) hname) (by decide)
    · exact absurd heq (by decide)
    · exact absurd heq (by decide)
    · exact newline_notMem_escape _ hvalue
    · exact absurd heq (by decide)
  induction labels with
  | nil => exact List.not_mem_nil
  | cons label labels ih =>
    have hrest := ih (fun l hl => h l (List.mem_cons_of_mem _ hl))
      fun l hl => hlabel l (List.mem_cons_of_mem _ hl)
    by_cases hnil : labels = []
    · rw [hnil]
      exact hlabel label List.mem_cons_self
    · rw [renderLabels_cons label hnil, List.mem_append, List.mem_cons]
      rintro (hmem | heq | hmem)
      · exact hlabel label List.mem_cons_self hmem
      · exact absurd heq (by decide)
      · exact hrest hmem

theorem newline_notMem_of_isToken {value : Bytes} (h : isToken value) : newline ∉ value := by
  intro hmem
  have hb := List.all_eq_true.mp h newline hmem
  exact absurd hb (by decide)

theorem newline_notMem_line (hw : w.WellFormed) : newline ∉ w.line := by
  intro h
  rw [Written.line, Written.prelude, List.mem_append, List.mem_append] at h
  rcases h with (hname | hbraces) | hvalue
  · exact absurd (isNameChar_of_mem hw.name hname) (by decide)
  · split_ifs at hbraces with hlabels
    · exact absurd (List.mem_singleton.mp hbraces) (by decide)
    · simp only [List.mem_append, List.mem_cons, List.not_mem_nil, or_false] at hbraces
      rcases hbraces with hgap | heq | hlabel | heq | heq
      · exact absurd (List.all_eq_true.mp hw.gap _ hgap) (by decide)
      · exact absurd heq (by decide)
      · exact newline_notMem_renderLabels hw.labels hlabel
      · exact absurd heq (by decide)
      · exact absurd heq (by decide)
  · exact newline_notMem_of_isToken hw.token hvalue

theorem parseLine_line (hw : w.WellFormed) : parseLine w.line = some [w.sample] := by
  cases hname : w.sample.name with
  | nil =>
    have hvalid := hw.name
    rw [hname] at hvalid
    exact absurd hvalid (by decide)
  | cons b bs =>
    have hb : isNameChar b := isNameChar_of_mem hw.name (hname ▸ List.mem_cons_self)
    have hline : ∃ rest, w.line = b :: rest := by
      rw [Written.line, Written.prelude, hname]
      exact ⟨_, rfl⟩
    obtain ⟨rest, hline⟩ := hline
    have hskip : skipBlanks w.line = w.line := by
      rw [hline]
      exact skipBlanks_cons (isBlank_eq_false hb)
    have hcomment : ¬ isComment w.line := by
      rw [isComment, hskip, hline]
      intro heq
      rw [decide_eq_true_eq.mp heq] at hb
      exact absurd hb (by decide)
    rw [parseLine, if_neg hcomment, hskip, readSample_line hw]
    rfl

/-- Samples that are written are read back. -/
theorem parseText_flatMap {ws : List Written} (h : ∀ w ∈ ws, w.WellFormed) :
    parseText (ws.flatMap Written.text) = some (ws.map Written.sample) := by
  induction ws with
  | nil => rfl
  | cons w ws ih =>
    have hw := h w List.mem_cons_self
    have htext : (w :: ws).flatMap Written.text =
        w.line ++ newline :: ws.flatMap Written.text := by
      simp [Written.text]
    have hrest : parseLines (splitLines (ws.flatMap Written.text)) = some (ws.map Written.sample) :=
      ih fun w hw => h w (List.mem_cons_of_mem _ hw)
    rw [parseText, htext, splitLines_append, splitLines_of_notMem (newline_notMem_line hw),
      List.singleton_append, parseLines_cons _ (splitLines_ne_nil _), parseLine_line hw, hrest]
    rfl

/-! ### What is read -/

theorem wellFormed_of_readSample {line : Bytes} {s : Sample} (h : readSample line = some s) :
    validName s.name ∧ isFloat s.value := by
  rw [readSample] at h
  dsimp only at h
  split_ifs at h with hname
  obtain ⟨⟨labels, rest⟩, -, h⟩ := Option.bind_eq_some_iff.mp h
  dsimp only at h
  split_ifs at h with hvalue
  obtain rfl := Option.some_inj.mp h
  exact ⟨hname, (Bool.and_eq_true_iff.mp hvalue).1⟩

theorem wellFormed_of_parseLines {lines : List Bytes} {samples : List Sample}
    (h : parseLines lines = some samples) : ∀ s ∈ samples, validName s.name ∧ isFloat s.value := by
  induction lines generalizing samples with
  | nil => cases h
  | cons line lines ih =>
    by_cases hnil : lines = []
    · rw [hnil, parseLines] at h
      split_ifs at h
      obtain rfl := Option.some_inj.mp h
      exact fun s hs => absurd hs List.not_mem_nil
    · rw [parseLines_cons line hnil] at h
      obtain ⟨here, hhere, h⟩ := Option.bind_eq_some_iff.mp h
      obtain ⟨there, hthere, rfl⟩ := Option.map_eq_some_iff.mp h
      intro s hs
      rcases List.mem_append.mp hs with hs | hs
      · rw [parseLine] at hhere
        split_ifs at hhere
        · obtain rfl := Option.some_inj.mp hhere
          exact absurd hs List.not_mem_nil
        · obtain ⟨s', hread, rfl⟩ := Option.map_eq_some_iff.mp hhere
          rw [List.mem_singleton.mp hs]
          exact wellFormed_of_readSample hread
      · exact ih hthere s hs

/-- What is read of a text has names and numbers. -/
theorem wellFormed_of_parseText {text : Bytes} {samples : List Sample}
    (h : parseText text = some samples) : ∀ s ∈ samples, validName s.name ∧ isFloat s.value :=
  wellFormed_of_parseLines h

/-! ### Heads -/

/-- All the lines of a text behind the first are blank or comments. -/
def Quiet (text : Bytes) : Prop := ∀ line ∈ (splitLines text).tail, isComment line

instance (text : Bytes) : Decidable (Quiet text) :=
  inferInstanceAs (Decidable (∀ line ∈ (splitLines text).tail, isComment line))

/-- A comment with a text in it has no line that is none if and only if the text is quiet. -/
theorem isComment_append_iff {word : Bytes} (hcomment : ∀ line, isComment (word ++ line))
    (hword : newline ∉ word) (text : Bytes) :
    (∀ line ∈ splitLines (word ++ text), isComment line) ↔ Quiet text := by
  rw [splitLines_append_of_notMem hword, Quiet]
  cases splitLines text with
  | nil => simp
  | cons line lines => simp [hcomment]

/-- Two texts in front of another one add no sample if and only if all their lines are comments. -/
theorem parseText_append_iff {a b rest : Bytes} {samples more : List Sample}
    (hrest : parseText rest = some more) (hlen : samples.length = more.length) :
    parseText (a ++ newline :: (b ++ newline :: rest)) = some samples ↔
      ((∀ line ∈ splitLines a, isComment line) ∧ ∀ line ∈ splitLines b, isComment line) ∧
        samples = more := by
  rw [parseText, splitLines_append, splitLines_append, ← List.append_assoc,
    parseLines_append_iff hrest hlen, List.forall_mem_append]

/-! ### Texts are told apart -/

/-- Two texts of samples that differ in their numbers at most are alike only if the numbers are. -/
theorem flatMap_inj {ws ws' : List Written}
    (hprelude : ws.map Written.prelude = ws'.map Written.prelude)
    (hws : ∀ w ∈ ws, newline ∉ w.sample.value) (hws' : ∀ w ∈ ws', newline ∉ w.sample.value)
    (htext : ws.flatMap Written.text = ws'.flatMap Written.text) :
    ws.map (fun w => w.sample.value) = ws'.map fun w => w.sample.value := by
  induction ws generalizing ws' with
  | nil =>
    obtain rfl := List.map_eq_nil_iff.mp hprelude.symm
    rfl
  | cons w ws ih =>
    cases ws' with
    | nil => cases hprelude
    | cons w' ws' =>
      rw [List.map_cons, List.map_cons, List.cons.injEq] at hprelude
      have hcons : ∀ (w : Written) ws, (w :: ws).flatMap Written.text =
          w.prelude ++ (w.sample.value ++ newline :: ws.flatMap Written.text) := by
        intro w ws
        simp [Written.text, Written.line]
      rw [hcons, hcons, hprelude.1, List.append_cancel_left_eq] at htext
      -- the number is what stands in front of the line feed
      have hp : ∀ {value : Bytes}, newline ∉ value → ∀ b ∈ value, (b != newline) = true :=
        fun h b hb => bne_iff_ne.mpr fun heq => h (heq ▸ hb)
      have hw := hp (hws w List.mem_cons_self)
      have hw' := hp (hws' w' List.mem_cons_self)
      have hvalue := congrArg (List.takeWhile fun b => b != newline) htext
      have hrest := congrArg (List.dropWhile fun b => b != newline) htext
      rw [takeWhile_append_cons hw (by decide), takeWhile_append_cons hw' (by decide)] at hvalue
      rw [dropWhile_append_cons hw (by decide), dropWhile_append_cons hw' (by decide),
        List.cons.injEq] at hrest
      rw [List.map_cons, List.map_cons, hvalue]
      congr 1
      exact ih hprelude.2 (fun w hw => hws w (List.mem_cons_of_mem _ hw))
        (fun w hw => hws' w (List.mem_cons_of_mem _ hw)) hrest.2

end Yalantinglibs.ExpositionText
