import Yalantinglibs.Data.StepLoop
import Yalantinglibs.Data.TextCursor
import Yalantinglibs.Iguana.Scan

/-!
# Scanning YAML

`iguana/yaml_util.hpp`. The scanners are loops that look at the character they stand before and at
the one before it, and one of them does not move at a `'#'` that no space precedes.

A round of a loop is a step that goes on or leaves. `skip_space_and_lines` runs the loop of
`yaml_skip_till` inside its own, and its rounds are those of both.

## Main definitions

* `skipTillNewlineRound`, `yamlSkipTillRound`, `skipSpaceAndLinesRound` — a round of each scanner
* `StuckHash`, `ComesTo` — where a scanner does not move

## Main results

* `skipTillNewline_ends` — one scanner always ends
* `yamlSkipTill_ends_iff`, `skipSpaceAndLines_ends_iff` — when the others do
-/

set_option autoImplicit false

namespace Yalantinglibs.Iguana

open StepLoop

/-! ### Characters -/

/-- The code of `'#'`. -/
def hash : UInt8 := 0x23

/-- The code of a tabulator. -/
def tab : UInt8 := 0x09

/-- The code of `'-'`. -/
def dash : UInt8 := 0x2D

/-! ### The scanners -/

/-- The place of a scanner, and what follows the iterator `res`. -/
structure ValueScan where
  res : Bytes
  cur : TextCursor
  deriving DecidableEq, Repr

/-- A run of spaces, where a value may end. -/
def ValueScan.skipSpaces (s : ValueScan) : ValueScan where
  res := s.cur.it
  cur := s.cur.skipWhile fun c => c = space

/-- A comment, up to its line feed. -/
def ValueScan.skipComment (s : ValueScan) : ValueScan :=
  { s with cur := s.cur.skipWhile fun c => c ≠ lineFeed }

/-- What `skip_till_newline` returns at the end of a value: `res` and where the scanner stands. -/
def ValueScan.stop (s : ValueScan) : ValueScan :=
  if s.cur.prev = space then s else { s with res := s.cur.it }

/-- One character on. -/
def ValueScan.next (s : ValueScan) : ValueScan := { s with cur := s.cur.next }

/-- Where a value begins. -/
def ValueScan.start (cur : TextCursor) : ValueScan := ⟨cur.it, cur⟩

/-- A round of `skip_till_newline`. -/
def skipTillNewlineRound (s : ValueScan) : ValueScan ⊕ ValueScan :=
  match s.cur.it with
  | [] => .inr s.stop
  | c :: _ =>
    if c = lineFeed then .inr s.stop
    else if c = space then .inl s.skipSpaces
    else if c = hash then
      if s.cur.prev = space then .inr s.skipComment else .inl s.next
    else .inl s.next

/-- A round of `yaml_skip_till<C...>`. -/
def yamlSkipTillRound (stops : Bytes) (s : ValueScan) : ValueScan ⊕ Except Fault ValueScan :=
  match s.cur.it with
  | [] =>
    -- the message ends at a NUL among the stops
    .inr (raise ("Expected one of these: " ++
      String.ofList ((stops.takeWhile (· ≠ 0)).map fun c => Char.ofNat c.toNat)))
  | c :: _ =>
    -- the stop is passed
    if c ∈ stops then .inr (.ok { s.stop with cur := s.cur.next })
    else if c = lineFeed then .inr (raise "\\n is not expected")
    else if c = space then .inl s.skipSpaces
    else if c = hash then
      -- nothing moves where no space stands before it
      if s.cur.prev = space then .inr (.ok s.skipComment) else .inl s
    else .inl s.next

/-- `yaml_skip_till<C...>`, at most so many rounds. -/
def yamlSkipTill (stops : Bytes) (rounds : ℕ) (cur : TextCursor) :
    Option (Except Fault ValueScan) :=
  if cur.it = [] then some (.ok (.start cur)) else run (yamlSkipTillRound stops) rounds (.start cur)

/-- Where `skip_space_and_lines` is: between two rounds of its own, with the indentation, or inside
`yaml_skip_till<false, '\n'>` on a line that begins at `start`. -/
inductive LinesScan where
  | blanks (res : UInt64) (cur : TextCursor)
  | line (start : TextCursor) (s : ValueScan)
  deriving DecidableEq, Repr

/-- The stops of `yaml_skip_till<false, '\n'>`. -/
def lineStops : Bytes := [0, lineFeed]

/-- `"---"`. -/
def documentMark : Bytes := [dash, dash, dash]

/-- The text from `start` up to what `line_end` points at. -/
def lineOf (start : TextCursor) (s : ValueScan) : Bytes :=
  start.it.take (start.it.length - s.res.length)

/-- A round of `skip_space_and_lines<Throw>`. -/
def skipSpaceAndLinesRound (throws : Bool) (minspaces : UInt64) :
    LinesScan → LinesScan ⊕ Except Fault (UInt64 × TextCursor)
  | .blanks res cur =>
    match cur.it with
    | [] => .inr (.ok (res, cur))
    | c :: it =>
      if c = lineFeed then
        if it.head? = some dash then .inl (.line cur.next (.start cur.next))
        else .inl (.blanks 0 cur.next)
      else if c = space ∨ c = tab then .inl (.blanks (res + 1) cur.next)
      else if c = hash then .inl (.blanks 0 (cur.skipWhile fun c => c ≠ lineFeed))
      else if throws ∧ res < minspaces then .inr (raise "Indentation problem")
      else .inr (.ok (res, cur))
  | .line start s =>
    match yamlSkipTillRound lineStops s with
    | .inl s' => .inl (.line start s')
    | .inr (.ok s') =>
      -- a line that is not a mark is read again from its start
      if lineOf start s' = documentMark then .inl (.blanks 0 s'.cur) else .inl (.blanks 0 start)
    | .inr (.error e) => .inr (.error e)

/-! ### Where they stay -/

/-- The scanner of a value comes to a `'#'` that no space precedes, before any stop, line feed or
comment. -/
def StuckHash (stops : Bytes) (cur : TextCursor) : Prop :=
  ∃ p r, cur.it = p ++ hash :: r ∧ (∀ c ∈ p, c ∉ stops ∧ c ≠ lineFeed ∧ c ≠ hash) ∧ hash ∉ stops ∧
    (p.reverse ++ cur.before).headD 0 ≠ space

/-- Only spaces and a comment are left of a line, with what follows the line. -/
inductive BlankLine : Bytes → Bytes → Prop
  | ended (n : ℕ) {c : UInt8} (it : Bytes) (hc : c ∈ lineStops) :
      BlankLine (List.replicate n space ++ c :: it) it
  | comment (n : ℕ) (it : Bytes) :
      BlankLine (List.replicate (n + 1) space ++ hash :: it)
        ((hash :: it).dropWhile fun c => c ≠ lineFeed)

/-- The line of a document mark, with what follows it. -/
def MarkLine (it rest : Bytes) : Prop := ∃ it', it = documentMark ++ it' ∧ BlankLine it' rest

/-- `skip_space_and_lines` comes from one place to the other: over blanks, comments, line feeds
that no dash follows, and lines of document marks. -/
inductive ComesTo : Bytes → Bytes → Prop
  | refl (it : Bytes) : ComesTo it it
  | blank {c : UInt8} {it it' : Bytes} (hc : c = space ∨ c = tab) (h : ComesTo it it') :
      ComesTo (c :: it) it'
  | comment {it it' : Bytes} (h : ComesTo ((hash :: it).dropWhile fun c => c ≠ lineFeed) it') :
      ComesTo (hash :: it) it'
  | lineFeed {it it' : Bytes} (hit : it.head? ≠ some dash) (h : ComesTo it it') :
      ComesTo (lineFeed :: it) it'
  | mark {it rest it' : Bytes} (hit : MarkLine it rest) (h : ComesTo rest it') :
      ComesTo (Iguana.lineFeed :: it) it'

/-- `skip_space_and_lines` comes to a line that begins with a dash and has a `'#'` where
`yaml_skip_till` stays. -/
def StuckLine (it : Bytes) : Prop :=
  ∃ it', ComesTo it (lineFeed :: dash :: it') ∧ StuckHash lineStops ⟨[lineFeed], dash :: it'⟩

/-! ### One value -/

section Value

variable {stops : Bytes} {c : UInt8} {before it : Bytes} {s s' : ValueScan}

/-- The scanner has less before it. -/
def ValueScan.Less (s' s : ValueScan) : Prop := s'.cur.it.length < s.cur.it.length

theorem ValueScan.wellFounded_less : WellFounded ValueScan.Less :=
  InvImage.wf (fun s : ValueScan => s.cur.it.length) wellFounded_lt

theorem ValueScan.skipSpaces_less (h : s.cur.it = space :: it) : s.skipSpaces.Less s := by
  obtain ⟨res, before, rest⟩ := s
  subst h
  exact TextCursor.skipWhile_length_lt (decide_eq_true rfl)

theorem ValueScan.next_less (h : s.cur.it = c :: it) : s.next.Less s := by
  obtain ⟨res, before, rest⟩ := s
  subst h
  exact Nat.lt_succ_self _

/-- Each round of `skip_till_newline` has less before it. -/
theorem skipTillNewlineRound_less (h : skipTillNewlineRound s = .inl s') : s'.Less s := by
  cases hit : s.cur.it with
  | nil =>
    rw [skipTillNewlineRound, hit] at h
    cases h
  | cons c it =>
    rw [skipTillNewlineRound, hit] at h
    dsimp only at h
    by_cases hfeed : c = lineFeed
    · rw [if_pos hfeed] at h
      cases h
    rw [if_neg hfeed] at h
    by_cases hspace : c = space
    · rw [if_pos hspace] at h
      cases h
      exact ValueScan.skipSpaces_less (hspace ▸ hit)
    rw [if_neg hspace] at h
    -- a `'#'` behind a space leaves, any other character is passed
    split at h
    · split at h
      · cases h
      · cases h
        exact ValueScan.next_less hit
    · cases h
      exact ValueScan.next_less hit

/-! The rounds of `yaml_skip_till`, by the character before the scanner. -/

section Rounds

variable (hit : s.cur.it = c :: it)

include hit

theorem yamlSkipTillRound_of_mem (hstop : c ∈ stops) :
    yamlSkipTillRound stops s = .inr (.ok { s.stop with cur := s.cur.next }) := by
  rw [yamlSkipTillRound, hit]
  exact if_pos hstop

theorem yamlSkipTillRound_of_lineFeed (hstop : c ∉ stops) (hc : c = lineFeed) :
    yamlSkipTillRound stops s = .inr (raise "\\n is not expected") := by
  rw [yamlSkipTillRound, hit]
  exact (if_neg hstop).trans (if_pos hc)

theorem yamlSkipTillRound_of_space (hstop : c ∉ stops) (hc : c = space) :
    yamlSkipTillRound stops s = .inl s.skipSpaces := by
  subst hc
  rw [yamlSkipTillRound, hit]
  exact (if_neg hstop).trans rfl

theorem yamlSkipTillRound_of_hash (hstop : c ∉ stops) (hc : c = hash) :
    yamlSkipTillRound stops s =
      if s.cur.prev = space then .inr (.ok s.skipComment) else .inl s := by
  subst hc
  rw [yamlSkipTillRound, hit]
  exact (if_neg hstop).trans rfl

theorem yamlSkipTillRound_of_ne (hstop : c ∉ stops) (hfeed : c ≠ lineFeed) (hspace : c ≠ space)
    (hhash : c ≠ hash) : yamlSkipTillRound stops s = .inl s.next := by
  rw [yamlSkipTillRound, hit]
  exact (if_neg hstop).trans ((if_neg hfeed).trans ((if_neg hspace).trans (if_neg hhash)))

end Rounds

/-- A character that is neither a stop nor a `'#'` changes nothing about the `'#'` behind it. -/
theorem stuckHash_cons (hstop : c ∉ stops) (hfeed : c ≠ lineFeed) (hhash : c ≠ hash) :
    StuckHash stops ⟨before, c :: it⟩ ↔ StuckHash stops ⟨c :: before, it⟩ := by
  constructor
  · rintro ⟨p, r, hit, hp, hstops, hprev⟩
    cases p with
    | nil => exact absurd (List.cons.inj hit).1 hhash
    | cons d p =>
      obtain ⟨rfl, rfl⟩ := List.cons.inj hit
      refine ⟨p, r, rfl, fun e he => hp e (List.mem_cons_of_mem _ he), hstops, ?_⟩
      rwa [List.reverse_cons, List.append_assoc] at hprev
  · rintro ⟨p, r, hit, hp, hstops, hprev⟩
    refine ⟨c :: p, r, congrArg (c :: ·) hit, List.forall_mem_cons.mpr ⟨⟨hstop, hfeed, hhash⟩, hp⟩,
      hstops, ?_⟩
    rwa [List.reverse_cons, List.append_assoc]

theorem stuckHash_hash (hstop : hash ∉ stops) :
    StuckHash stops ⟨before, hash :: it⟩ ↔ before.headD 0 ≠ space := by
  constructor
  · rintro ⟨p, r, hit, hp, -, hprev⟩
    cases p with
    | nil => exact hprev
    | cons d p => exact absurd (List.cons.inj hit).1.symm (hp d List.mem_cons_self).2.2
  · intro hprev
    exact ⟨[], it, rfl, by simp, hstop, hprev⟩

/-- No `'#'` is come to from a stop or a line feed. -/
theorem not_stuckHash_of_mem (h : c ∈ stops ∨ c = lineFeed) :
    ¬ StuckHash stops ⟨before, c :: it⟩ := by
  rintro ⟨p, r, hit, hp, hstops, -⟩
  cases p with
  | nil =>
    obtain rfl := (List.cons.inj hit).1
    rcases h with hmem | hfeed
    · exact hstops hmem
    · exact absurd hfeed (by decide)
  | cons d p =>
    obtain rfl := (List.cons.inj hit).1
    obtain ⟨hstop, hfeed, -⟩ := hp c List.mem_cons_self
    rcases h with hmem | rfl
    · exact hstop hmem
    · exact hfeed rfl

theorem not_stuckHash_nil : ¬ StuckHash stops ⟨before, []⟩ := by
  rintro ⟨p, r, hit, -⟩
  simp at hit

/-- A run of spaces changes nothing about the `'#'` behind it. -/
theorem stuckHash_skipSpaces (hspace : space ∉ stops) :
    StuckHash stops s.skipSpaces.cur ↔ StuckHash stops s.cur := by
  refine TextCursor.skipWhile_induction (P := fun cur => StuckHash stops cur ↔
    StuckHash stops s.cur)
    ?_ Iff.rfl
  intro c before it hc h
  obtain rfl := of_decide_eq_true hc
  rw [← h]
  exact (stuckHash_cons hspace (by decide) (by decide)).symm

/-- The round does not move before a `'#'` it is stuck at, and comes closer to one that is
farther. -/
theorem yamlSkipTillRound_of_stuckHash (h : StuckHash stops s.cur) :
    ∃ s', yamlSkipTillRound stops s = .inl s' ∧ StuckHash stops s'.cur := by
  obtain ⟨res, before, it⟩ := s
  cases it with
  | nil => exact (not_stuckHash_nil h).elim
  | cons c it =>
    have hstop : c ∉ stops := fun hmem => not_stuckHash_of_mem (.inl hmem) h
    have hfeed : c ≠ lineFeed := fun hc => not_stuckHash_of_mem (.inr hc) h
    by_cases hspace : c = space
    · refine ⟨_, yamlSkipTillRound_of_space rfl hstop hspace, ?_⟩
      exact (stuckHash_skipSpaces (hspace ▸ hstop)).mpr h
    by_cases hhash : c = hash
    · refine ⟨_, yamlSkipTillRound_of_hash rfl hstop hhash |>.trans (if_neg ?_), h⟩
      subst hhash
      exact (stuckHash_hash hstop).mp h
    · exact ⟨_, yamlSkipTillRound_of_ne rfl hstop hfeed hspace hhash,
        (stuckHash_cons hstop hfeed hhash).mp h⟩

/-- What a round of `yaml_skip_till` that goes on does. -/
theorem yamlSkipTillRound_inl (h : yamlSkipTillRound stops s = .inl s') :
    (∃ it, s.cur.it = space :: it ∧ space ∉ stops ∧ s' = s.skipSpaces) ∨
      (∃ it, s.cur.it = hash :: it ∧ hash ∉ stops ∧ s.cur.prev ≠ space ∧ s' = s) ∨
        ∃ c it, s.cur.it = c :: it ∧ c ∉ stops ∧ c ≠ lineFeed ∧ c ≠ space ∧ c ≠ hash ∧
          s' = s.next := by
  obtain ⟨res, before, it⟩ := s
  cases it with
  | nil => cases h
  | cons c it =>
    by_cases hstop : c ∈ stops
    · cases (yamlSkipTillRound_of_mem rfl hstop).symm.trans h
    by_cases hfeed : c = lineFeed
    · cases (yamlSkipTillRound_of_lineFeed rfl hstop hfeed).symm.trans h
    by_cases hspace : c = space
    · cases (yamlSkipTillRound_of_space rfl hstop hspace).symm.trans h
      exact .inl ⟨it, hspace ▸ rfl, hspace ▸ hstop, rfl⟩
    by_cases hhash : c = hash
    · rw [yamlSkipTillRound_of_hash rfl hstop hhash] at h
      by_cases hprev : TextCursor.prev ⟨before, c :: it⟩ = space
      · cases (if_pos hprev).symm.trans h
      · cases (if_neg hprev).symm.trans h
        exact .inr (.inl ⟨it, hhash ▸ rfl, hhash ▸ hstop, hprev, rfl⟩)
    · cases (yamlSkipTillRound_of_ne rfl hstop hfeed hspace hhash).symm.trans h
      exact .inr (.inr ⟨c, it, rfl, hstop, hfeed, hspace, hhash, rfl⟩)

/-- What a round of `yaml_skip_till` that returns does. -/
theorem yamlSkipTillRound_ok (h : yamlSkipTillRound stops s = .inr (.ok s')) :
    (∃ c it, s.cur.it = c :: it ∧ c ∈ stops ∧ s' = { s.stop with cur := s.cur.next }) ∨
      ∃ it, s.cur.it = hash :: it ∧ s.cur.prev = space ∧ s' = s.skipComment := by
  obtain ⟨res, before, it⟩ := s
  cases it with
  | nil => cases h
  | cons c it =>
    by_cases hstop : c ∈ stops
    · cases (yamlSkipTillRound_of_mem rfl hstop).symm.trans h
      exact .inl ⟨c, it, rfl, hstop, rfl⟩
    by_cases hfeed : c = lineFeed
    · cases (yamlSkipTillRound_of_lineFeed rfl hstop hfeed).symm.trans h
    by_cases hspace : c = space
    · cases (yamlSkipTillRound_of_space rfl hstop hspace).symm.trans h
    by_cases hhash : c = hash
    · rw [yamlSkipTillRound_of_hash rfl hstop hhash] at h
      by_cases hprev : TextCursor.prev ⟨before, c :: it⟩ = space
      · cases (if_pos hprev).symm.trans h
        exact .inr ⟨it, hhash ▸ rfl, hprev, rfl⟩
      · cases (if_neg hprev).symm.trans h
    · cases (yamlSkipTillRound_of_ne rfl hstop hfeed hspace hhash).symm.trans h

/-- Away from such a `'#'` the scanner comes closer to the end. -/
theorem yamlSkipTillRound_less (hstuck : ¬ StuckHash stops s.cur)
    (h : yamlSkipTillRound stops s = .inl s') : ¬ StuckHash stops s'.cur ∧ s'.Less s := by
  obtain ⟨it, hit, hstop, rfl⟩ | ⟨it, hit, hstop, hprev, rfl⟩ |
      ⟨c, it, hit, hstop, hfeed, hspace, hhash, rfl⟩ := yamlSkipTillRound_inl h
  · exact ⟨fun hs => hstuck ((stuckHash_skipSpaces hstop).mp hs), ValueScan.skipSpaces_less hit⟩
  · refine absurd ?_ hstuck
    obtain ⟨res, before, it'⟩ := s'
    subst hit
    exact (stuckHash_hash hstop).mpr hprev
  · refine ⟨fun hs => hstuck ?_, ValueScan.next_less hit⟩
    obtain ⟨res, before, it'⟩ := s
    subst hit
    exact (stuckHash_cons hstop hfeed hhash).mpr hs

/-- The loop of `yaml_skip_till` ends where it comes to no such `'#'`. -/
theorem yamlSkipTillRound_ends (h : ¬ StuckHash stops s.cur) :
    (∃ r, Ends (yamlSkipTillRound stops) s r) ∧
      Advances (yamlSkipTillRound stops) ValueScan.Less s :=
  endsAdvancing_of_invariant ValueScan.wellFounded_less (fun s => ¬ StuckHash stops s.cur)
    (fun _ _ => yamlSkipTillRound_less) h

theorem not_ends_yamlSkipTillRound {r : Except Fault ValueScan} (h : StuckHash stops s.cur) :
    ¬ Ends (yamlSkipTillRound stops) s r :=
  not_ends_of_invariant (fun s => StuckHash stops s.cur)
    (fun _ => yamlSkipTillRound_of_stuckHash) h

/-! ### A line with a dash -/

/-- What `yaml_skip_till` returns is no longer than the text from the last place that a character
other than a space precedes. -/
theorem res_length_le_of_ends {n : ℕ} (h : Ends (yamlSkipTillRound stops) s (.ok s'))
    (hit : s.cur.it.length ≤ n) (hres : s.cur.prev = space → s.res.length ≤ n) :
    s'.res.length ≤ n := by
  refine h.of_invariant
    (fun s => s.cur.it.length ≤ n ∧ (s.cur.prev = space → s.res.length ≤ n))
    (fun r => ∀ s', r = .ok s' → s'.res.length ≤ n) ?_ ?_ ⟨hit, hres⟩ s' rfl
  · rintro s t ⟨hle, hlast⟩ hround
    obtain ⟨it, hit, -, rfl⟩ | ⟨it, -, -, -, rfl⟩ | ⟨c, it, hit, -, -, hspace, -, rfl⟩ :=
      yamlSkipTillRound_inl hround
    · exact ⟨(ValueScan.skipSpaces_less hit).le.trans hle, fun _ => hle⟩
    · exact ⟨hle, hlast⟩
    · refine ⟨(ValueScan.next_less hit).le.trans hle, fun hprev => absurd ?_ hspace⟩
      obtain ⟨res, before, it'⟩ := s
      subst hit
      exact hprev
  · rintro s r ⟨hle, hlast⟩ hround s' rfl
    obtain ⟨c, it, hit, -, rfl⟩ | ⟨it, -, hprev, rfl⟩ := yamlSkipTillRound_ok hround
    · rw [ValueScan.stop]
      split
      · exact hlast ‹_›
      · exact hle
    · exact hlast hprev

/-- The round of `yaml_skip_till` stays in the text. -/
theorem yamlSkipTillRound_suffix (h : yamlSkipTillRound stops s = .inl s') :
    s'.cur.it <:+ s.cur.it ∧ (s'.res = s.res ∨ s'.res = s.cur.it) := by
  obtain ⟨it, -, -, rfl⟩ | ⟨it, -, -, -, rfl⟩ | ⟨c, it, -, -, -, -, -, rfl⟩ :=
    yamlSkipTillRound_inl h
  · exact ⟨TextCursor.skipWhile_suffix _, .inr rfl⟩
  · exact ⟨List.suffix_rfl, .inl rfl⟩
  · exact ⟨TextCursor.next_suffix _, .inl rfl⟩

/-- What `yaml_skip_till` returns is a place in the text, as the one it leaves the scanner at. -/
theorem suffix_of_ends {it : Bytes} (h : Ends (yamlSkipTillRound stops) s (.ok s'))
    (hit : s.cur.it <:+ it) (hres : s.res <:+ it) : s'.res <:+ it ∧ s'.cur.it <:+ it := by
  refine h.of_invariant (fun s => s.res <:+ it ∧ s.cur.it <:+ it)
    (fun r => ∀ s', r = .ok s' → s'.res <:+ it ∧ s'.cur.it <:+ it) ?_ ?_ ⟨hres, hit⟩ s' rfl
  · rintro s t ⟨hres, hit⟩ hround
    obtain ⟨hcur, hres' | hres'⟩ := yamlSkipTillRound_suffix hround
    · exact ⟨hres' ▸ hres, hcur.trans hit⟩
    · exact ⟨hres' ▸ hit, hcur.trans hit⟩
  · rintro s r ⟨hres, hit⟩ hround s' rfl
    obtain ⟨c, it', -, -, rfl⟩ | ⟨it', -, -, rfl⟩ := yamlSkipTillRound_ok hround
    · refine ⟨?_, (TextCursor.next_suffix _).trans hit⟩
      rw [ValueScan.stop]
      split
      · exact hres
      · exact hit
    · exact ⟨hres, (TextCursor.skipWhile_suffix _).trans hit⟩

end Value

section Line

variable {s s' : ValueScan} {it rest : Bytes}

/-- Behind a run of spaces. -/
theorem skipSpaces_cur {n : ℕ} {c : UInt8}
    (hit : s.cur.it = List.replicate (n + 1) space ++ c :: it)
    (hc : c ≠ space) : s.skipSpaces.cur.it = c :: it ∧ s.skipSpaces.cur.prev = space := by
  obtain ⟨res, before, it'⟩ := s
  subst hit
  constructor
  · refine (TextCursor.skipWhile_it _).trans ?_
    rw [List.dropWhile_append_of_pos fun a ha => decide_eq_true (List.eq_of_mem_replicate ha)]
    exact List.dropWhile_cons_of_neg fun h => hc (of_decide_eq_true h)
  · rw [List.replicate_succ, List.cons_append]
    exact of_decide_eq_true (TextCursor.prev_skipWhile (p := fun c => c = space)
      (decide_eq_true rfl))

theorem space_not_mem_lineStops : space ∉ lineStops := by decide

theorem hash_not_mem_lineStops : hash ∉ lineStops := by decide

theorem dash_not_mem_lineStops : dash ∉ lineStops := by decide

theorem ne_space_of_mem_lineStops {c : UInt8} (h : c ∈ lineStops) : c ≠ space := fun hc =>
  space_not_mem_lineStops (hc ▸ h)

/-- Over the rest of a blank line `yaml_skip_till` comes to what follows the line, and returns the
place it started at. -/
theorem ends_of_blankLine (h : BlankLine s.cur.it rest) (hprev : s.cur.prev ≠ space) :
    ∃ s', Ends (yamlSkipTillRound lineStops) s (.ok s') ∧ s'.res = s.cur.it ∧ s'.cur.it = rest := by
  -- a run of spaces is a round of its own, and what ends the line another
  generalize hit : s.cur.it = it at h
  cases h with
  | ended n it hc =>
    cases n with
    | zero =>
      obtain ⟨res, before, it'⟩ := s
      subst hit
      refine ⟨_, (ends_iff_of_inr (yamlSkipTillRound_of_mem rfl hc)).mpr rfl, ?_, rfl⟩
      exact congrArg ValueScan.res (if_neg hprev)
    | succ n =>
      obtain ⟨hcur, hspace⟩ := skipSpaces_cur hit (ne_space_of_mem_lineStops hc)
      refine ⟨_, (ends_iff_of_inl (yamlSkipTillRound_of_space hit space_not_mem_lineStops rfl)).mpr
        ((ends_iff_of_inr (yamlSkipTillRound_of_mem hcur hc)).mpr rfl), ?_, ?_⟩
      · rw [ValueScan.stop, if_pos hspace]
        exact hit
      · exact (TextCursor.next_it _).trans (congrArg List.tail hcur)
  | comment n it =>
    obtain ⟨hcur, hspace⟩ := skipSpaces_cur hit (by decide)
    refine ⟨_, (ends_iff_of_inl (yamlSkipTillRound_of_space hit space_not_mem_lineStops rfl)).mpr
      ((ends_iff_of_inr ((yamlSkipTillRound_of_hash hcur hash_not_mem_lineStops rfl).trans
        (if_pos hspace))).mpr rfl), hit, ?_⟩
    refine (TextCursor.skipWhile_it _).trans ?_
    rw [hcur]

private theorem exists_replicate_of_cons (it : Bytes) :
    ∃ n, space :: it = List.replicate (n + 1) space ++ (space :: it).dropWhile fun c => c = space := by
  refine ⟨(it.takeWhile fun c => c = space).length, ?_⟩
  have hrun : it.takeWhile (fun c => c = space) =
      List.replicate (it.takeWhile fun c => c = space).length space :=
    List.eq_replicate_of_mem fun c hc =>
      of_decide_eq_true (List.all_eq_true.mp List.all_takeWhile c hc)
  rw [List.replicate_succ, ← hrun, List.cons_append, List.dropWhile_cons_of_pos (by rfl),
    List.takeWhile_append_dropWhile]

/-- What `yaml_skip_till` returns is shorter than a text that begins with a character it passes. -/
theorem not_res_eq_of_next {c : UInt8} (hit : s.cur.it = c :: it) (hc : c ≠ space)
    (h : Ends (yamlSkipTillRound lineStops) s.next (.ok s')) : s'.res.length ≤ it.length := by
  obtain ⟨res, before, it'⟩ := s
  subst hit
  exact res_length_le_of_ends h le_rfl fun hprev => absurd hprev hc

theorem yamlSkipTillRound_nil {stops : Bytes} (hit : s.cur.it = []) :
    ∃ e, yamlSkipTillRound stops s = .inr (.error e) := by
  rw [yamlSkipTillRound, hit]
  exact ⟨_, rfl⟩

private theorem blankLine_of_spaces {n : ℕ} {c : UInt8}
    (hit : s.cur.it = List.replicate (n + 1) space ++ c :: it) (hc : c ≠ space)
    (h : Ends (yamlSkipTillRound lineStops) s.skipSpaces (.ok s')) (hres : s'.res = s.cur.it) :
    BlankLine s.cur.it s'.cur.it := by
  obtain ⟨hcur, hprev⟩ := skipSpaces_cur hit hc
  cases hround : yamlSkipTillRound lineStops s.skipSpaces with
  | inr r =>
    rw [ends_iff_of_inr hround] at h
    obtain ⟨d, it', hcur', hd, rfl⟩ | ⟨it', hcur', -, rfl⟩ :=
      yamlSkipTillRound_ok (hround.trans (congrArg _ h))
    · obtain ⟨rfl, rfl⟩ := List.cons.inj (hcur.symm.trans hcur')
      have hnext : s.skipSpaces.cur.next.it = it :=
        (TextCursor.next_it _).trans (congrArg List.tail hcur)
      rw [hit]
      exact hnext ▸ BlankLine.ended (n + 1) it hd
    · obtain ⟨rfl, rfl⟩ := List.cons.inj (hcur.symm.trans hcur')
      have hcomment : s.skipSpaces.skipComment.cur.it = (hash :: it).dropWhile fun c => c ≠ lineFeed :=
        (TextCursor.skipWhile_it _).trans (by rw [hcur])
      rw [hit, hcomment]
      exact BlankLine.comment n it
  | inl s₂ =>
    have h₂ := (ends_iff_of_inl hround).mp h
    obtain ⟨it', hcur', -, -⟩ | ⟨it', -, -, hne, -⟩ | ⟨d, it', hcur', -, -, -, -, rfl⟩ :=
      yamlSkipTillRound_inl hround
    · exact absurd (List.cons.inj (hcur.symm.trans hcur')).1 hc
    · exact absurd hprev hne
    · obtain ⟨rfl, rfl⟩ := List.cons.inj (hcur.symm.trans hcur')
      have hle := not_res_eq_of_next hcur hc h₂
      rw [hres, hit, List.length_append, List.length_cons] at hle
      omega

/-- A line of which `yaml_skip_till` returns the place it started at is blank from there on. -/
theorem blankLine_of_ends (h : Ends (yamlSkipTillRound lineStops) s (.ok s'))
    (hprev : s.cur.prev ≠ space) (hres : s'.res = s.cur.it) : BlankLine s.cur.it s'.cur.it := by
  cases hround : yamlSkipTillRound lineStops s with
  | inr r =>
    rw [ends_iff_of_inr hround] at h
    obtain ⟨c, it, hit, hc, rfl⟩ | ⟨it, -, hspace, -⟩ :=
      yamlSkipTillRound_ok (hround.trans (congrArg _ h))
    · have hnext : s.cur.next.it = it := (TextCursor.next_it _).trans (congrArg List.tail hit)
      rw [hit]
      exact hnext ▸ BlankLine.ended 0 it hc
    · exact absurd hspace hprev
  | inl s₁ =>
    have h₁ := (ends_iff_of_inl hround).mp h
    obtain ⟨it, hit, -, rfl⟩ | ⟨it, -, -, -, rfl⟩ | ⟨c, it, hit, -, -, hspace, -, rfl⟩ :=
      yamlSkipTillRound_inl hround
    · obtain ⟨n, hspaces⟩ := exists_replicate_of_cons it
      have hcur : s.skipSpaces.cur.it = (space :: it).dropWhile fun c => c = space :=
        (TextCursor.skipWhile_it _).trans (by rw [hit])
      cases hrest : (space :: it).dropWhile fun c => c = space with
      | nil =>
        obtain ⟨e, he⟩ : ∃ e, yamlSkipTillRound lineStops s.skipSpaces = .inr (.error e) :=
          yamlSkipTillRound_nil (hcur.trans hrest)
        cases (ends_iff_of_inr he).mp h₁
      | cons c rest =>
        have hc : c ≠ space := fun hc => by
          have hnot := List.head_dropWhile_not (fun c => decide (c = space)) (l := space :: it)
            (by rw [hrest]; exact List.cons_ne_nil c rest)
          simp only [hrest, List.head_cons, hc, decide_true, Bool.true_eq_false] at hnot
        exact blankLine_of_spaces (by rw [hit, ← hrest]; exact hspaces) hc h₁ hres
    · exact (not_ends_of_eq hround h).elim
    · have hle := not_res_eq_of_next hit hspace h₁
      rw [hres, hit] at hle
      exact absurd hle (Nat.not_succ_le_self _)

private theorem ends_start_mark (before it : Bytes) {r : Except Fault ValueScan} :
    Ends (yamlSkipTillRound lineStops) (.start ⟨before, documentMark ++ it⟩) r ↔
      Ends (yamlSkipTillRound lineStops)
        ⟨documentMark ++ it, ⟨dash :: dash :: dash :: before, it⟩⟩ r := by
  have hdash {res before it : Bytes} :
      yamlSkipTillRound lineStops ⟨res, ⟨before, dash :: it⟩⟩ =
        .inl ⟨res, ⟨dash :: before, it⟩⟩ :=
    yamlSkipTillRound_of_ne rfl dash_not_mem_lineStops (by decide) (by decide) (by decide)
  exact ((ends_iff_of_inl hdash).trans (ends_iff_of_inl hdash)).trans (ends_iff_of_inl hdash)

theorem lineOf_append (before line : Bytes) (s : ValueScan) :
    lineOf ⟨before, line ++ s.res⟩ s = line := by
  rw [lineOf, List.length_append, Nat.add_sub_cancel, List.take_left]

/-- The line of a document mark is recognised. -/
theorem ends_of_markLine (before : Bytes) (h : MarkLine it rest) :
    ∃ s', Ends (yamlSkipTillRound lineStops) (.start ⟨before, it⟩) (.ok s') ∧
      lineOf ⟨before, it⟩ s' = documentMark ∧ s'.cur.it = rest := by
  obtain ⟨it', rfl, hblank⟩ := h
  obtain ⟨s', hends, hres, hcur⟩ := ends_of_blankLine
    (s := ⟨documentMark ++ it', ⟨dash :: dash :: dash :: before, it'⟩⟩) hblank (show dash ≠ space by decide)
  refine ⟨s', (ends_start_mark before it').mpr hends, ?_, hcur⟩
  rw [← show s'.res = it' from hres, lineOf_append]

/-- No other line is. -/
theorem markLine_of_ends {cur : TextCursor}
    (h : Ends (yamlSkipTillRound lineStops) (.start cur) (.ok s'))
    (hline : lineOf cur s' = documentMark) : MarkLine cur.it s'.cur.it := by
  obtain ⟨before, it⟩ := cur
  obtain ⟨⟨line, rfl⟩, -⟩ := suffix_of_ends h List.suffix_rfl List.suffix_rfl
  rw [lineOf_append] at hline
  subst hline
  exact ⟨s'.res, rfl, blankLine_of_ends ((ends_start_mark before s'.res).mp h)
    (show dash ≠ space by decide) rfl⟩

end Line

/-! ### Lines -/

section Lines

variable {throws : Bool} {minspaces res : UInt64} {before it rest : Bytes} {c : UInt8}

/-- A `'#'` at which `yaml_skip_till` stays does not depend on what precedes the line. -/
theorem stuckHash_line {stops before : Bytes} :
    StuckHash stops ⟨lineFeed :: before, it⟩ ↔ StuckHash stops ⟨[lineFeed], it⟩ := by
  unfold StuckHash
  have hprev (p : Bytes) :
      (p.reverse ++ lineFeed :: before).headD 0 = (p.reverse ++ [lineFeed]).headD 0 := by
    cases p.reverse <;> rfl
  simp only [hprev]

theorem not_stuckLine_nil : ¬ StuckLine [] := by
  rintro ⟨it', h, -⟩
  cases h

theorem stuckLine_blank {c : UInt8} (hc : c = space ∨ c = tab) :
    StuckLine (c :: it) ↔ StuckLine it := by
  constructor
  · rintro ⟨it', h, hstuck⟩
    cases h with
    | refl => exact absurd hc (by decide)
    | blank _ h => exact ⟨it', h, hstuck⟩
    | comment h => exact absurd hc (by decide)
    | lineFeed _ h => exact absurd hc (by decide)
    | mark _ h => exact absurd hc (by decide)
  · rintro ⟨it', h, hstuck⟩
    exact ⟨it', .blank hc h, hstuck⟩

theorem stuckLine_comment :
    StuckLine (hash :: it) ↔ StuckLine ((hash :: it).dropWhile fun c => c ≠ lineFeed) := by
  constructor
  · rintro ⟨it', h, hstuck⟩
    cases h with
    | blank hc h => exact absurd hc (by decide)
    | comment h => exact ⟨it', h, hstuck⟩
  · rintro ⟨it', h, hstuck⟩
    exact ⟨it', .comment h, hstuck⟩

theorem stuckLine_lineFeed (hit : it.head? ≠ some dash) :
    StuckLine (lineFeed :: it) ↔ StuckLine it := by
  constructor
  · rintro ⟨it', h, hstuck⟩
    cases h with
    | refl => exact absurd rfl hit
    | blank hc h => exact absurd hc (by decide)
    | lineFeed _ h => exact ⟨it', h, hstuck⟩
    | mark hmark _ =>
      obtain ⟨it'', rfl, -⟩ := hmark
      exact absurd rfl hit
  · rintro ⟨it', h, hstuck⟩
    exact ⟨it', .lineFeed hit h, hstuck⟩

/-- Before a line with a dash. -/
theorem stuckLine_dash :
    StuckLine (lineFeed :: dash :: it) ↔ StuckHash lineStops ⟨[lineFeed], dash :: it⟩ ∨
      ∃ rest, MarkLine (dash :: it) rest ∧ StuckLine rest := by
  constructor
  · rintro ⟨it', h, hstuck⟩
    cases h with
    | refl => exact .inl hstuck
    | blank hc h => exact absurd hc (by decide)
    | lineFeed hit h => exact absurd rfl hit
    | mark hmark h => exact .inr ⟨_, hmark, it', h, hstuck⟩
  · rintro (hstuck | ⟨rest, hmark, it', h, hstuck⟩)
    · exact ⟨it, .refl _, hstuck⟩
    · exact ⟨it', .mark hmark h, hstuck⟩

theorem not_stuckLine_of_ne (hfeed : c ≠ lineFeed) (hblank : ¬ (c = space ∨ c = tab))
    (hhash : c ≠ hash) : ¬ StuckLine (c :: it) := by
  rintro ⟨it', h, -⟩
  cases h with
  | refl => exact hfeed rfl
  | blank hc _ => exact hblank hc
  | comment _ => exact hhash rfl
  | lineFeed _ _ => exact hfeed rfl
  | mark _ _ => exact hfeed rfl

/-! The rounds between two lines, by the character before the scanner. -/

theorem skipSpaceAndLinesRound_of_dash :
    skipSpaceAndLinesRound throws minspaces (.blanks res ⟨before, lineFeed :: dash :: it⟩) =
      .inl (.line ⟨lineFeed :: before, dash :: it⟩ (.start ⟨lineFeed :: before, dash :: it⟩)) := rfl

theorem skipSpaceAndLinesRound_of_lineFeed (hit : it.head? ≠ some dash) :
    skipSpaceAndLinesRound throws minspaces (.blanks res ⟨before, lineFeed :: it⟩) =
      .inl (.blanks 0 ⟨lineFeed :: before, it⟩) := if_neg hit

theorem skipSpaceAndLinesRound_of_blank (hc : c = space ∨ c = tab) :
    skipSpaceAndLinesRound throws minspaces (.blanks res ⟨before, c :: it⟩) =
      .inl (.blanks (res + 1) ⟨c :: before, it⟩) := by
  rcases hc with rfl | rfl <;> rfl

theorem skipSpaceAndLinesRound_of_hash :
    skipSpaceAndLinesRound throws minspaces (.blanks res ⟨before, hash :: it⟩) =
      .inl (.blanks 0 (TextCursor.skipWhile (fun c => c ≠ lineFeed) ⟨before, hash :: it⟩)) := rfl

theorem skipSpaceAndLinesRound_of_ne (hfeed : c ≠ lineFeed) (hblank : ¬ (c = space ∨ c = tab))
    (hhash : c ≠ hash) :
    ∃ r, skipSpaceAndLinesRound throws minspaces (.blanks res ⟨before, c :: it⟩) = .inr r := by
  rw [skipSpaceAndLinesRound]
  dsimp only
  rw [if_neg hfeed, if_neg hblank, if_neg hhash]
  split <;> exact ⟨_, rfl⟩

/-- How far the text goes on behind the scanner, and inside a line behind that of the line. -/
def LinesScan.left : LinesScan → ℕ × ℕ
  | .blanks _ cur => (cur.it.length, 0)
  | .line start s => (start.it.length, s.cur.it.length + 1)

/-- The scanner has less before it, or less of the line it looks at. -/
def LinesScan.Less (s' s : LinesScan) : Prop := Prod.Lex (· < ·) (· < ·) s'.left s.left

theorem LinesScan.wellFounded_less : WellFounded LinesScan.Less :=
  InvImage.wf LinesScan.left (wellFounded_lt.prod_lex wellFounded_lt)

/-- The line of a scan: where it stands it has come to from the start of a line that begins with a
dash. -/
structure OnLine (start : TextCursor) (s : ValueScan) : Prop where
  dash : start.it.head? = some dash
  reached : Reaches (yamlSkipTillRound lineStops) (.start start) s

/-- Nothing the scanner comes to stops it. -/
def LinesScan.Free : LinesScan → Prop
  | .blanks _ cur => ¬ StuckLine cur.it
  | .line start s => OnLine start s ∧ ¬ StuckHash lineStops s.cur ∧
      ∀ rest, MarkLine start.it rest → ¬ StuckLine rest

/-- The scanner comes to a place it does not leave. -/
def LinesScan.Stuck : LinesScan → Prop
  | .blanks _ cur => StuckLine cur.it
  | .line start s => OnLine start s ∧
      (StuckHash lineStops s.cur ∨ ∃ rest, MarkLine start.it rest ∧ StuckLine rest)

theorem blanks_free_step {s' : LinesScan} (h : ¬ StuckLine it)
    (hround : skipSpaceAndLinesRound throws minspaces (.blanks res ⟨before, it⟩) = .inl s') :
    s'.Free ∧ s'.Less (.blanks res ⟨before, it⟩) := by
  cases it with
  | nil => cases hround
  | cons c it =>
    by_cases hfeed : c = lineFeed
    · subst hfeed
      by_cases hdash : it.head? = some dash
      · obtain ⟨it, rfl⟩ := List.head?_eq_some_iff.mp hdash
        cases skipSpaceAndLinesRound_of_dash.symm.trans hround
        rw [stuckLine_dash, not_or, not_exists] at h
        refine ⟨⟨⟨rfl, .refl⟩, fun hs => h.1 (stuckHash_line.mp hs), fun rest hmark hs => ?_⟩, ?_⟩
        · exact h.2 rest ⟨hmark, hs⟩
        · exact .left _ _ (Nat.lt_succ_self _)
      · cases (skipSpaceAndLinesRound_of_lineFeed hdash).symm.trans hround
        exact ⟨fun hs => h ((stuckLine_lineFeed hdash).mpr hs), .left _ _ (Nat.lt_succ_self _)⟩
    by_cases hblank : c = space ∨ c = tab
    · cases (skipSpaceAndLinesRound_of_blank hblank).symm.trans hround
      exact ⟨fun hs => h ((stuckLine_blank hblank).mpr hs), .left _ _ (Nat.lt_succ_self _)⟩
    by_cases hhash : c = hash
    · subst hhash
      cases skipSpaceAndLinesRound_of_hash.symm.trans hround
      refine ⟨fun hs => h (stuckLine_comment.mpr ?_), .left _ _ ?_⟩
      · rw [← TextCursor.skipWhile_it ⟨before, hash :: it⟩]
        exact hs
      · exact TextCursor.skipWhile_length_lt (by decide)
    · obtain ⟨r, hr⟩ := skipSpaceAndLinesRound_of_ne hfeed hblank hhash
      cases hr.symm.trans hround

section OnLine

variable {start : TextCursor} {s : ValueScan}

theorem skipSpaceAndLinesRound_of_inl {s' : ValueScan}
    (h : yamlSkipTillRound lineStops s = .inl s') :
    skipSpaceAndLinesRound throws minspaces (.line start s) = .inl (.line start s') := by
  rw [skipSpaceAndLinesRound, h]

theorem skipSpaceAndLinesRound_of_ok {s' : ValueScan}
    (h : yamlSkipTillRound lineStops s = .inr (.ok s')) :
    skipSpaceAndLinesRound throws minspaces (.line start s) =
      .inl (.blanks 0 (if lineOf start s' = documentMark then s'.cur else start)) := by
  rw [skipSpaceAndLinesRound, h]
  dsimp only
  split <;> rfl

theorem skipSpaceAndLinesRound_of_error {e : Fault}
    (h : yamlSkipTillRound lineStops s = .inr (.error e)) :
    skipSpaceAndLinesRound throws minspaces (.line start s) = .inr (.error e) := by
  rw [skipSpaceAndLinesRound, h]

theorem OnLine.ends (h : OnLine start s) {r : Except Fault ValueScan}
    (hround : yamlSkipTillRound lineStops s = .inr r) :
    Ends (yamlSkipTillRound lineStops) (.start start) r :=
  h.reached.ends_iff.mpr ((ends_iff_of_inr hround).mpr rfl)

theorem OnLine.next (h : OnLine start s) {s' : ValueScan}
    (hround : yamlSkipTillRound lineStops s = .inl s') : OnLine start s' :=
  ⟨h.dash, h.reached.tail hround⟩

theorem OnLine.not_stuckLine (h : OnLine start s) : ¬ StuckLine start.it := by
  obtain ⟨it, hit⟩ := List.head?_eq_some_iff.mp h.dash
  rw [hit]
  exact not_stuckLine_of_ne (by decide) (by decide) (by decide)

theorem line_free_step {s' : LinesScan} (h : (LinesScan.line start s).Free)
    (hround : skipSpaceAndLinesRound throws minspaces (.line start s) = .inl s') :
    s'.Free ∧ s'.Less (.line start s) := by
  obtain ⟨hline, hstuck, hmark⟩ := h
  cases hvalue : yamlSkipTillRound lineStops s with
  | inl s₁ =>
    cases (skipSpaceAndLinesRound_of_inl hvalue).symm.trans hround
    obtain ⟨hstuck', hless⟩ := yamlSkipTillRound_less hstuck hvalue
    exact ⟨⟨hline.next hvalue, hstuck', hmark⟩, .right _ (Nat.succ_lt_succ hless)⟩
  | inr r =>
    cases r with
    | error e => cases (skipSpaceAndLinesRound_of_error hvalue).symm.trans hround
    | ok s₁ =>
      cases (skipSpaceAndLinesRound_of_ok hvalue).symm.trans hround
      have hends := hline.ends hvalue
      by_cases hlineOf : lineOf start s₁ = documentMark
      · rw [if_pos hlineOf]
        refine ⟨hmark _ (markLine_of_ends hends hlineOf), ?_⟩
        -- behind the mark there is less than from its start on
        obtain ⟨-, hsuffix⟩ := suffix_of_ends hends List.suffix_rfl List.suffix_rfl
        exact Prod.lex_iff.mpr (hsuffix.length_le.lt_or_eq.imp id fun heq => ⟨heq, Nat.succ_pos _⟩)
      · rw [if_neg hlineOf]
        exact ⟨hline.not_stuckLine, .right _ (Nat.succ_pos _)⟩

end OnLine

/-- A round keeps away from what would stop it, and has less before it. -/
theorem LinesScan.Free.step {s s' : LinesScan} (h : s.Free)
    (hround : skipSpaceAndLinesRound throws minspaces s = .inl s') : s'.Free ∧ s'.Less s := by
  cases s with
  | blanks res cur => exact blanks_free_step h hround
  | line start s => exact line_free_step h hround

theorem blanks_stuck_step (h : StuckLine it) :
    ∃ s', skipSpaceAndLinesRound throws minspaces (.blanks res ⟨before, it⟩) = .inl s' ∧
      s'.Stuck := by
  cases it with
  | nil => exact (not_stuckLine_nil h).elim
  | cons c it =>
    by_cases hfeed : c = lineFeed
    · subst hfeed
      by_cases hdash : it.head? = some dash
      · obtain ⟨it, rfl⟩ := List.head?_eq_some_iff.mp hdash
        exact ⟨_, skipSpaceAndLinesRound_of_dash, ⟨rfl, .refl⟩,
          (stuckLine_dash.mp h).imp stuckHash_line.mpr id⟩
      · exact ⟨_, skipSpaceAndLinesRound_of_lineFeed hdash, (stuckLine_lineFeed hdash).mp h⟩
    by_cases hblank : c = space ∨ c = tab
    · exact ⟨_, skipSpaceAndLinesRound_of_blank hblank, (stuckLine_blank hblank).mp h⟩
    by_cases hhash : c = hash
    · subst hhash
      refine ⟨_, skipSpaceAndLinesRound_of_hash, ?_⟩
      rw [LinesScan.Stuck, TextCursor.skipWhile_it]
      exact stuckLine_comment.mp h
    · exact absurd h (not_stuckLine_of_ne hfeed hblank hhash)

theorem line_stuck_step {start : TextCursor} {s : ValueScan} (h : (LinesScan.line start s).Stuck) :
    ∃ s', skipSpaceAndLinesRound throws minspaces (.line start s) = .inl s' ∧ s'.Stuck := by
  obtain ⟨hline, hstuck | ⟨rest, hmark, hrest⟩⟩ := h
  · obtain ⟨s₁, hvalue, hstuck'⟩ := yamlSkipTillRound_of_stuckHash hstuck
    exact ⟨_, skipSpaceAndLinesRound_of_inl hvalue, hline.next hvalue, .inl hstuck'⟩
  · cases hvalue : yamlSkipTillRound lineStops s with
    | inl s₁ =>
      exact ⟨_, skipSpaceAndLinesRound_of_inl hvalue, hline.next hvalue, .inr ⟨rest, hmark, hrest⟩⟩
    | inr r =>
      -- the line ends as that of a mark does
      obtain ⟨s₁, hends, hlineOf, hcur⟩ := ends_of_markLine start.before hmark
      obtain rfl := (hline.ends hvalue).unique hends
      refine ⟨_, skipSpaceAndLinesRound_of_ok hvalue, ?_⟩
      rw [if_pos hlineOf, LinesScan.Stuck, hcur]
      exact hrest

/-- A round does not leave what stops it. -/
theorem LinesScan.Stuck.step {s : LinesScan} (h : s.Stuck) :
    ∃ s', skipSpaceAndLinesRound throws minspaces s = .inl s' ∧ s'.Stuck := by
  cases s with
  | blanks res cur => exact blanks_stuck_step h
  | line start s => exact line_stuck_step h

end Lines

/-! ### When they end -/

/-- `skip_till_newline` returns, and every round of its loop has less before it. -/
def SkipTillNewlineEnds (cur : TextCursor) : Prop :=
  (∃ r, Ends skipTillNewlineRound (.start cur) r) ∧
    Advances skipTillNewlineRound ValueScan.Less (.start cur)

/-- `yaml_skip_till<C...>` returns or throws, and every round of its loop has less before it. -/
def YamlSkipTillEnds (stops : Bytes) (cur : TextCursor) : Prop :=
  (∃ rounds r, yamlSkipTill stops rounds cur = some r) ∧
    Advances (yamlSkipTillRound stops) ValueScan.Less (.start cur)

/-- `skip_space_and_lines<Throw>` returns or throws, and every round of its loop, and of the one on
a line with a dash, has less before it. -/
def SkipSpaceAndLinesEnds (throws : Bool) (minspaces : UInt64) (cur : TextCursor) : Prop :=
  (∃ r, Ends (skipSpaceAndLinesRound throws minspaces) (.blanks minspaces cur) r) ∧
    Advances (skipSpaceAndLinesRound throws minspaces) LinesScan.Less (.blanks minspaces cur)

/-- `skip_till_newline` always ends. -/
theorem skipTillNewline_ends (cur : TextCursor) : SkipTillNewlineEnds cur :=
  endsAdvancing_of_invariant ValueScan.wellFounded_less (fun _ => True)
    (fun _ _ _ h => ⟨trivial, skipTillNewlineRound_less h⟩) trivial

theorem yamlSkipTill_ends_iff (stops : Bytes) (cur : TextCursor) :
    YamlSkipTillEnds stops cur ↔ ¬ StuckHash stops cur := by
  constructor
  · rintro ⟨⟨rounds, r, h⟩, -⟩ hstuck
    rw [yamlSkipTill] at h
    split at h
    case isTrue hend =>
      obtain ⟨before, it⟩ := cur
      subst hend
      exact not_stuckHash_nil hstuck
    case isFalse => exact not_ends_yamlSkipTillRound hstuck ⟨rounds, h⟩
  · intro h
    obtain ⟨⟨r, rounds, hr⟩, hadvances⟩ := yamlSkipTillRound_ends (s := .start cur) h
    refine ⟨⟨rounds, ?_⟩, hadvances⟩
    rw [yamlSkipTill]
    split
    · exact ⟨_, rfl⟩
    · exact ⟨r, hr⟩

theorem skipSpaceAndLines_ends_iff (throws : Bool) (minspaces : UInt64) (cur : TextCursor) :
    SkipSpaceAndLinesEnds throws minspaces cur ↔ ¬ StuckLine cur.it := by
  constructor
  · rintro ⟨⟨r, h⟩, -⟩ hstuck
    have hstart : (LinesScan.blanks minspaces cur).Stuck := hstuck
    exact not_ends_of_invariant LinesScan.Stuck (fun _ => LinesScan.Stuck.step) hstart h
  · intro h
    exact endsAdvancing_of_invariant LinesScan.wellFounded_less LinesScan.Free
      (fun _ _ => LinesScan.Free.step) h

/-- The three scanners end from a place, whatever they stop at. -/
structure ScannersEnd (stops : Bytes) (throws : Bool) (minspaces : UInt64) (cur : TextCursor) :
    Prop where
  skipTillNewline : SkipTillNewlineEnds cur
  yamlSkipTill : YamlSkipTillEnds stops cur
  skipSpaceAndLines : SkipSpaceAndLinesEnds throws minspaces cur

/-- The scanners end exactly where none of them comes to a `'#'` it stays at: behind no space, for
`yaml_skip_till` before a stop, and for `skip_space_and_lines` on a line with a dash. -/
theorem scannersEnd_iff (stops : Bytes) (throws : Bool) (minspaces : UInt64) (cur : TextCursor) :
    ScannersEnd stops throws minspaces cur ↔ ¬ StuckHash stops cur ∧ ¬ StuckLine cur.it := by
  constructor
  · intro h
    exact ⟨(yamlSkipTill_ends_iff stops cur).mp h.yamlSkipTill,
      (skipSpaceAndLines_ends_iff throws minspaces cur).mp h.skipSpaceAndLines⟩
  · rintro ⟨hhash, hline⟩
    exact ⟨skipTillNewline_ends cur, (yamlSkipTill_ends_iff stops cur).mpr hhash,
      (skipSpaceAndLines_ends_iff throws minspaces cur).mpr hline⟩

/-- A key with a `'#'` in it, `"a#b: c"`, and a list item, `"\n-#\n"`. -/
theorem not_scannersEnd_keyWithHash :
    ¬ YamlSkipTillEnds [0x3A] ⟨[lineFeed], [0x61, hash, 0x62, 0x3A, space, 0x63]⟩ ∧
      ¬ SkipSpaceAndLinesEnds true 0 ⟨[], [lineFeed, dash, hash, lineFeed]⟩ := by
  constructor
  · rw [yamlSkipTill_ends_iff, not_not]
    exact ⟨[0x61], [0x62, 0x3A, space, 0x63], rfl, by decide, by decide, by decide⟩
  · rw [skipSpaceAndLines_ends_iff, not_not]
    exact ⟨[hash, lineFeed], .refl _, [dash], [lineFeed], rfl, by decide, by decide, by decide⟩

end Yalantinglibs.Iguana
