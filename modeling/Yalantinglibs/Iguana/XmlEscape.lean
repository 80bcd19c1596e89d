import Yalantinglibs.Data.StepLoop
import Yalantinglibs.Iguana.XmlUtil

/-!
# Decoding XML text to its end

The loop of `xml_parse_value` for a string goes from `'&'` to `'&'`. `parse_escape_xml` looks at the
character behind the `'&'` and, for a reference, at those behind it, without asking where the value
ends; and it does not move at an `'&'` before a name that only begins like one it knows.

## Main definitions

* `xmlDecodeRound` — a round of the loop, with the reads behind the end of the value
* `WellEscaped` — the texts the loop comes through

## Main results

* `decodesToEnd_iff` — the loop ends, inside the value, exactly on these
-/

set_option autoImplicit false

namespace Yalantinglibs.Iguana

open ByteCodec StepLoop

/-! ### The loop -/

/-- How the loop is left: with the string, with an exception, or with a read at or behind the end of
the value. -/
inductive XmlDecoded where
  | value (s : Bytes)
  | thrown (e : Fault)
  | readPastEnd
  deriving DecidableEq, Repr

/-- What the digits of a reference are looked for in, behind the `'#'`. -/
def referenceText (rest : Bytes) : Bytes := if rest.head? = some 0x78 then rest.tail else rest

/-- `parse_escape_xml` reads at the end of the value: behind an `'&'` or a `'#'` that is its last
character, or behind digits that go up to there. -/
def escapeReadsPastEnd : Bytes → Bool
  | _ :: c :: rest =>
    c = 0x23 && (rest.isEmpty || (referenceText rest).all fun d => (hexValue d).isSome)
  | _ => true

/-- A round of the loop, with the string so far: up to the next `'&'`, and over it. -/
def xmlDecodeRound (s : Bytes × Bytes) : Bytes × Bytes ⊕ XmlDecoded :=
  match advanceUntilAmpersand s.2 with
  | none => .inr (.value (s.1 ++ s.2))
  | some stop =>
    if escapeReadsPastEnd stop then .inr .readPastEnd
    else
      match parseEscapeXml (s.1 ++ s.2.take (s.2.length - stop.length)) stop with
      | .ok s' => .inl s'
      | .error e => .inr (.thrown e)

/-- The round leaves less of the value. -/
def LessLeft (s' s : Bytes × Bytes) : Prop := s'.2.length < s.2.length

theorem wellFounded_lessLeft : WellFounded LessLeft :=
  InvImage.wf (fun s : Bytes × Bytes => s.2.length) wellFounded_lt

/-- The loop ends, every round leaves less of the value, and nothing behind it is read. -/
def DecodesToEnd (it : Bytes) : Prop :=
  (∃ r, Ends xmlDecodeRound ([], it) r ∧ r ≠ .readPastEnd) ∧
    Advances xmlDecodeRound LessLeft ([], it)

/-! ### Texts -/

/-- The known names behind an `'&'`. -/
def knownEntities : List Bytes :=
  [codes ['a', 'm', 'p', ';'], codes ['a', 'p', 'o', 's', ';'], codes ['q', 'u', 'o', 't', ';'],
    codes ['g', 't', ';'], codes ['l', 't', ';']]

/-- The characters a known name or a reference begins with. -/
def escapeStarts : Bytes := codes ['a', 'q', 'g', 'l', '#']

/-- Behind every `'&'` there is a known name, or a character that no name or reference begins with,
or a reference whose digits end before the text does; behind a reference that no semicolon follows
there may be anything. -/
inductive WellEscaped : Bytes → Prop
  | plain {it : Bytes} (h : ampersand ∉ it) : WellEscaped it
  | loose {p it : Bytes} {c : UInt8} (hp : ampersand ∉ p) (hc : c ∉ escapeStarts)
      (h : WellEscaped (c :: it)) : WellEscaped (p ++ ampersand :: c :: it)
  | entity {p e it : Bytes} (hp : ampersand ∉ p) (he : e ∈ knownEntities) (h : WellEscaped it) :
      WellEscaped (p ++ ampersand :: (e ++ it))
  | reference {p rest ds it : Bytes} {c : UInt8} (hp : ampersand ∉ p)
      (hrest : referenceText rest = ds ++ c :: it) (hds : ∀ d ∈ ds, (hexValue d).isSome)
      (hc : hexValue c = none) (h : c = semicolon → WellEscaped it) :
      WellEscaped (p ++ ampersand :: 0x23 :: rest)

/-- A text without an `'&'` in front changes nothing. -/
theorem WellEscaped.append {p it : Bytes} (hp : ampersand ∉ p) (h : WellEscaped it) :
    WellEscaped (p ++ it) := by
  have hmem {q : Bytes} (hq : ampersand ∉ q) : ampersand ∉ p ++ q := fun h =>
    (List.mem_append.mp h).elim hp hq
  cases h with
  | plain h => exact .plain (hmem h)
  | loose hq hc h =>
    rw [← List.append_assoc]
    exact .loose (hmem hq) hc h
  | entity hq he h =>
    rw [← List.append_assoc]
    exact .entity (hmem hq) he h
  | reference hq hrest hds hc h =>
    rw [← List.append_assoc]
    exact .reference (hmem hq) hrest hds hc h

/-! ### A round -/

section Round

variable {value p it rest : Bytes} {c : UInt8}

theorem xmlDecodeRound_of_notMem (h : ampersand ∉ it) :
    xmlDecodeRound (value, it) = .inr (.value (value ++ it)) := by
  have hplain : ∀ b ∈ it, b ≠ ampersand := by
    rintro b hb rfl
    exact h hb
  rw [xmlDecodeRound, advanceUntilAmpersand_eq_none hplain]

theorem xmlDecodeRound_append (hp : ampersand ∉ p) :
    xmlDecodeRound (value, p ++ ampersand :: it) =
      if escapeReadsPastEnd (ampersand :: it) then .inr .readPastEnd
      else
        match parseEscapeXml (value ++ p) (ampersand :: it) with
        | .ok s' => .inl s'
        | .error e => .inr (.thrown e) := by
  have hplain : ∀ b ∈ p, b ≠ ampersand := by
    rintro b hb rfl
    exact hp hb
  have htake : (p ++ ampersand :: it).take
      ((p ++ ampersand :: it).length - (ampersand :: it).length) = p := by
    rw [List.length_append, Nat.add_sub_cancel, List.take_left]
  rw [xmlDecodeRound]
  dsimp only
  rw [advanceUntilAmpersand_append hplain]
  dsimp only
  rw [htake]

/-- Behind any character but a `'#'` nothing is read past the end. -/
theorem escapeReadsPastEnd_of_ne (hc : c ≠ 0x23) :
    escapeReadsPastEnd (ampersand :: c :: rest) = false := by
  rw [escapeReadsPastEnd, decide_eq_false hc, Bool.false_and]

theorem parseEscapeXml_loose (hc : c ∉ escapeStarts) :
    parseEscapeXml value (ampersand :: c :: rest) = .ok (value ++ [ampersand], c :: rest) := by
  have hne : c ≠ 0x61 ∧ c ≠ 0x71 ∧ c ≠ 0x67 ∧ c ≠ 0x6C ∧ c ≠ 0x23 := by
    refine ⟨?_, ?_, ?_, ?_, ?_⟩ <;> rintro rfl <;> exact hc (by decide)
  obtain ⟨ha, hq, hg, hl, hh⟩ := hne
  rw [parseEscapeXml]
  dsimp only [List.tail_cons]
  rw [if_neg ha, if_neg hq, if_neg hg, if_neg hl, if_neg hh]

/-- A known name is passed. -/
theorem parseEscapeXml_entity {e : Bytes} (he : e ∈ knownEntities) :
    ∃ r, parseEscapeXml value (ampersand :: (e ++ it)) = .ok (value ++ [r], it) := by
  simp only [knownEntities, List.mem_cons, List.not_mem_nil, or_false] at he
  rcases he with rfl | rfl | rfl | rfl | rfl <;> exact ⟨_, rfl⟩

/-- The digits of a reference are passed. -/
theorem exists_parseReference (it : Bytes) {ds : Bytes} (hds : ∀ d ∈ ds, (hexValue d).isSome)
    (hc : hexValue c = none) (base v : ℕ) :
    ∃ v', parseReference base v (ds ++ c :: it) = (v', c :: it) := by
  induction ds generalizing v with
  | nil =>
    refine ⟨v, ?_⟩
    rw [List.nil_append, parseReference, hc]
  | cons d ds ih =>
    obtain ⟨x, hx⟩ := Option.isSome_iff_exists.mp (hds d List.mem_cons_self)
    obtain ⟨v', hv'⟩ := ih (fun d hd => hds d (List.mem_cons_of_mem _ hd))
      ((v * base + x) % 2 ^ 64)
    refine ⟨v', ?_⟩
    rw [List.cons_append, parseReference, hx]
    exact hv'

/-- A reference is passed with its semicolon. -/
theorem parseEscapeXml_digits {ds : Bytes} (hrest : referenceText rest = ds ++ c :: it)
    (hds : ∀ d ∈ ds, (hexValue d).isSome) (hc : hexValue c = none) :
    ∃ r, parseEscapeXml value (ampersand :: 0x23 :: rest) =
      (matchChars [semicolon] (c :: it)).map fun it => (value ++ r, it) := by
  obtain ⟨v, hv⟩ := exists_parseReference it hds hc (if rest.head? = some 0x78 then 16 else 10) 0
  refine ⟨encodeUtf8 (v % 2 ^ 32), ?_⟩
  rw [← hrest] at hv
  have href : parseEscapeXml value (ampersand :: 0x23 :: rest) =
      (matchChars [semicolon]
        (if rest.head? = some 0x78 then parseReference 16 0 rest.tail
          else parseReference 10 0 rest).2).map fun it =>
        (value ++ encodeUtf8 ((if rest.head? = some 0x78 then parseReference 16 0 rest.tail
          else parseReference 10 0 rest).1 % 2 ^ 32), it) := rfl
  rw [href]
  rw [referenceText] at hv
  by_cases hx : rest.head? = some 0x78
  · simp only [if_pos hx] at hv ⊢
    rw [hv]
  · simp only [if_neg hx] at hv ⊢
    rw [hv]

theorem matchChars_semicolon_of_ne (it : Bytes) (hc : c ≠ semicolon) :
    ∃ e, matchChars [semicolon] (c :: it) = .error e := by
  have htake : (c :: it).take [semicolon].length ≠ [semicolon] := fun h =>
    hc (List.cons.inj h).1
  rw [matchChars, if_neg (by simp), if_neg htake]
  exact ⟨_, rfl⟩

/-- Behind a `'#'` the digits end before the text does unless the reader goes past its end. -/
theorem exists_digits (h : escapeReadsPastEnd (ampersand :: 0x23 :: rest) = false) :
    ∃ ds c it, referenceText rest = ds ++ c :: it ∧ (∀ d ∈ ds, (hexValue d).isSome) ∧
      hexValue c = none := by
  have hall : ¬ (referenceText rest).all (fun d => (hexValue d).isSome) = true := by
    intro hall
    rw [escapeReadsPastEnd, hall, Bool.or_true] at h
    cases h
  cases hfind : (referenceText rest).find? fun d => (hexValue d).isNone with
  | none =>
    rw [List.find?_eq_none] at hfind
    refine absurd (List.all_eq_true.mpr fun d hd => ?_) hall
    exact Option.isSome_iff_ne_none.mpr (by simpa using hfind d hd)
  | some c =>
    obtain ⟨hc, ds, it, hrest, hds⟩ := List.find?_eq_some_iff_append.mp hfind
    exact ⟨ds, c, it, hrest, fun d hd => by simpa using hds d hd, Option.isNone_iff_eq_none.mp hc⟩

theorem eq_append_of_isMatch {e : Bytes} (h : isMatch e rest = true) :
    rest = e ++ rest.drop e.length := by
  have htake : rest.take e.length = e := of_decide_eq_true h
  rw [← List.take_append_drop e.length rest, htake, List.drop_left' rfl]

/-- A name that only begins like a known one. -/
theorem parseEscapeXml_unknown (hc : c ∈ escapeStarts) (hne : c ≠ 0x23)
    (hunknown : ∀ e ∈ knownEntities, ∀ it, c :: rest ≠ e ++ it) :
    parseEscapeXml value (ampersand :: c :: rest) = .ok (value, ampersand :: c :: rest) := by
  -- what would follow the first character of a known name
  have hno {c' : UInt8} {e : Bytes} (hcc : c = c') (he : c' :: e ∈ knownEntities) :
      isMatch e rest = false := by
    subst hcc
    refine Bool.eq_false_iff.mpr fun hmatch => ?_
    exact hunknown _ he _ (congrArg (c :: ·) (eq_append_of_isMatch hmatch))
  simp only [escapeStarts, codes, List.map_cons, List.map_nil, List.mem_cons, List.not_mem_nil,
    or_false] at hc
  rcases hc with rfl | rfl | rfl | rfl | rfl
  · have hamp : isMatch (codes ['m', 'p', ';']) rest = false := hno rfl (by decide)
    have hapos : isMatch (codes ['p', 'o', 's', ';']) rest = false := hno rfl (by decide)
    change (if isMatch (codes ['m', 'p', ';']) rest then _
      else if isMatch (codes ['p', 'o', 's', ';']) rest then _ else _) = _
    rw [hamp, hapos]
    rfl
  · have hquot : isMatch (codes ['u', 'o', 't', ';']) rest = false := hno rfl (by decide)
    change (if isMatch (codes ['u', 'o', 't', ';']) rest then _ else _) = _
    rw [hquot]
    rfl
  · have hgt : isMatch (codes ['t', ';']) rest = false :=
      hno (rfl : (0x67 : UInt8) = 0x67) (by decide)
    change (if isMatch (codes ['t', ';']) rest then _ else _) = _
    rw [hgt]
    rfl
  · have hlt : isMatch (codes ['t', ';']) rest = false :=
      hno (rfl : (0x6C : UInt8) = 0x6C) (by decide)
    change (if isMatch (codes ['t', ';']) rest then _ else _) = _
    rw [hlt]
    rfl
  · exact absurd rfl hne

end Round

/-! ### The loop -/

section Loop

variable {s' : Bytes × Bytes} {value p it rest : Bytes} {c : UInt8}

theorem xmlDecodeRound_of_ok (hp : ampersand ∉ p)
    (hpast : escapeReadsPastEnd (ampersand :: it) = false)
    (h : parseEscapeXml (value ++ p) (ampersand :: it) = .ok s') :
    xmlDecodeRound (value, p ++ ampersand :: it) = .inl s' := by
  rw [xmlDecodeRound_append hp, hpast, h]
  rfl

theorem xmlDecodeRound_of_error {e : Fault} (hp : ampersand ∉ p)
    (hpast : escapeReadsPastEnd (ampersand :: it) = false)
    (h : parseEscapeXml (value ++ p) (ampersand :: it) = .error e) :
    xmlDecodeRound (value, p ++ ampersand :: it) = .inr (.thrown e) := by
  rw [xmlDecodeRound_append hp, hpast, h]
  rfl

theorem escapeReadsPastEnd_entity {e : Bytes} (he : e ∈ knownEntities) :
    escapeReadsPastEnd (ampersand :: (e ++ it)) = false := by
  simp only [knownEntities, List.mem_cons, List.not_mem_nil, or_false] at he
  rcases he with rfl | rfl | rfl | rfl | rfl <;> rfl

theorem escapeReadsPastEnd_digits {ds : Bytes} (hrest : referenceText rest = ds ++ c :: it)
    (hc : hexValue c = none) : escapeReadsPastEnd (ampersand :: 0x23 :: rest) = false := by
  have hne : rest ≠ [] := by
    rintro rfl
    rw [referenceText] at hrest
    simp at hrest
  have hall : (referenceText rest).all (fun d => (hexValue d).isSome) = false := by
    rw [hrest, List.all_append, List.all_cons, hc]
    simp
  rw [escapeReadsPastEnd, hall, List.isEmpty_eq_false_iff.mpr hne]
  rfl

/-- On a text that the loop comes through a round leaves less of one, or leaves the loop inside the
value. -/
theorem xmlDecodeRound_of_wellEscaped (value : Bytes) (h : WellEscaped it) :
    (∃ s', xmlDecodeRound (value, it) = .inl s' ∧ WellEscaped s'.2 ∧ s'.2.length < it.length) ∨
      ∃ r, xmlDecodeRound (value, it) = .inr r ∧ r ≠ .readPastEnd := by
  cases h with
  | plain h => exact .inr ⟨_, xmlDecodeRound_of_notMem h, nofun⟩
  | loose hp hc h =>
    have hne : ∀ c, c ∉ escapeStarts → c ≠ 0x23 := by
      rintro c hc rfl
      exact hc (by decide)
    refine .inl ⟨_, xmlDecodeRound_of_ok hp (escapeReadsPastEnd_of_ne (hne _ hc))
      (parseEscapeXml_loose hc), h, ?_⟩
    simp only [List.length_append, List.length_cons]
    omega
  | entity hp he h =>
    obtain ⟨r, hr⟩ := parseEscapeXml_entity he
    refine .inl ⟨_, xmlDecodeRound_of_ok hp (escapeReadsPastEnd_entity he) hr, h, ?_⟩
    simp only [List.length_append, List.length_cons]
    omega
  | @reference p rest ds it c hp hrest hds hc h =>
    obtain ⟨r, hr⟩ := parseEscapeXml_digits hrest hds hc
    have hpast := escapeReadsPastEnd_digits hrest hc
    by_cases hsemicolon : c = semicolon
    · subst hsemicolon
      rw [matchChars_cons] at hr
      refine .inl ⟨_, xmlDecodeRound_of_ok hp hpast hr, h rfl, ?_⟩
      -- the text of the reference is a part of what stands behind the `'#'`
      have hle : (referenceText rest).length ≤ rest.length := by
        rw [referenceText]
        split
        · exact rest.length_tail.trans_le (Nat.sub_le _ _)
        · exact le_rfl
      rw [hrest] at hle
      simp only [List.length_append, List.length_cons] at hle ⊢
      omega
    · obtain ⟨e, he⟩ := matchChars_semicolon_of_ne it hsemicolon
      rw [he] at hr
      exact .inr ⟨_, xmlDecodeRound_of_error hp hpast hr, nofun⟩

/-- A round that stays inside the value, and goes on only to texts that the loop comes through,
begins at one. -/
theorem WellEscaped.of_xmlDecodeRound (value : Bytes)
    (hinl : ∀ s', xmlDecodeRound (value, it) = .inl s' → WellEscaped s'.2)
    (hinr : xmlDecodeRound (value, it) ≠ .inr .readPastEnd) : WellEscaped it := by
  by_cases hmem : ampersand ∈ it
  · obtain ⟨p, w, rfl, hp⟩ := List.eq_append_cons_of_mem hmem
    cases hpast : escapeReadsPastEnd (ampersand :: w) with
    | true =>
      refine absurd ?_ hinr
      rw [xmlDecodeRound_append hp, hpast]
      rfl
    | false =>
      have hnext {s' : Bytes × Bytes}
          (h : parseEscapeXml (value ++ p) (ampersand :: w) = .ok s') : WellEscaped s'.2 :=
        hinl s' (xmlDecodeRound_of_ok hp hpast h)
      cases w with
      | nil => cases hpast
      | cons c rest =>
        by_cases hc : c ∈ escapeStarts
        · by_cases hhash : c = 0x23
          · subst hhash
            obtain ⟨ds, c, it, hrest, hds, hc⟩ := exists_digits hpast
            refine .reference hp hrest hds hc ?_
            rintro rfl
            obtain ⟨r, hr⟩ := parseEscapeXml_digits hrest hds hc
            rw [matchChars_cons] at hr
            exact hnext hr
          · by_cases hknown : ∃ e ∈ knownEntities, ∃ it, c :: rest = e ++ it
            · obtain ⟨e, he, it, hrest⟩ := hknown
              obtain ⟨r, hr⟩ := parseEscapeXml_entity he
              rw [hrest] at hnext ⊢
              exact .entity hp he (hnext hr)
            · push Not at hknown
              exact (hnext (parseEscapeXml_unknown hc hhash hknown)).append hp
        · exact .loose hp hc (hnext (parseEscapeXml_loose hc))
  · exact .plain hmem

end Loop

/-- The loop ends, getting closer to the end of the value with every round and reading nothing
behind it, exactly on the texts of which every `'&'` is followed as it should be. -/
theorem decodesToEnd_iff (it : Bytes) : DecodesToEnd it ↔ WellEscaped it := by
  constructor
  · rintro ⟨⟨r, ⟨n, hn⟩, hr⟩, -⟩
    -- back from the last round, in which the loop is left
    have hback : ∀ n s, run xmlDecodeRound n s = some r → WellEscaped s.2 := by
      intro n
      induction n with
      | zero => exact fun s h => nomatch h
      | succ n ih =>
        rintro ⟨value, it⟩ h
        refine .of_xmlDecodeRound value (fun s' hround => ?_) fun hround => ?_
        · rw [run, hround] at h
          exact ih s' h
        · rw [run, hround] at h
          exact hr (Option.some.inj h).symm
    exact hback n _ hn
  · intro h
    have hinl (s s' : Bytes × Bytes) (hs : WellEscaped s.2) (hround : xmlDecodeRound s = .inl s') :
        WellEscaped s'.2 ∧ LessLeft s' s := by
      obtain ⟨s₁, hs₁, hwell, hless⟩ | ⟨r, hr, -⟩ := xmlDecodeRound_of_wellEscaped s.1 hs
      · cases hround.symm.trans hs₁
        exact ⟨hwell, hless⟩
      · cases hround.symm.trans hr
    obtain ⟨⟨r, hr⟩, hadvances⟩ := endsAdvancing_of_invariant wellFounded_lessLeft
      (fun s => WellEscaped s.2) hinl (s := ([], it)) h
    refine ⟨⟨r, hr, ?_⟩, hadvances⟩
    refine hr.of_invariant (fun s => WellEscaped s.2) (· ≠ .readPastEnd)
      (fun s s' hs hround => (hinl s s' hs hround).1) (fun s r hs hround => ?_) h
    obtain ⟨s₁, hs₁, -⟩ | ⟨r', hr', hne⟩ := xmlDecodeRound_of_wellEscaped s.1 hs
    · cases hround.symm.trans hs₁
    · cases hround.symm.trans hr'
      exact hne

/-- The texts `"&amp"`, at which the loop stays, and `"&"`, behind which it reads. -/
theorem not_decodesToEnd_unterminated :
    ¬ DecodesToEnd (codes ['&', 'a', 'm', 'p']) ∧ ¬ DecodesToEnd (codes ['&']) := by
  constructor
  · rintro ⟨⟨r, hr, -⟩, -⟩
    have hstep : xmlDecodeRound ([], codes ['&', 'a', 'm', 'p']) =
        .inl ([], codes ['&', 'a', 'm', 'p']) := by decide +kernel
    exact not_ends_of_eq hstep hr
  · rintro ⟨⟨r, hr, hne⟩, -⟩
    have hstep : xmlDecodeRound ([], codes ['&']) = .inr .readPastEnd := by decide +kernel
    exact hne ((ends_iff_of_inr hstep).mp hr).symm

end Yalantinglibs.Iguana
