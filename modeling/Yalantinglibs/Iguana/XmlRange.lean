import Yalantinglibs.Data.TextCursor
import Yalantinglibs.Iguana.XmlText

/-!
# Ranges of XML values

The reader of `iguana/xml_reader.hpp` finds where a value begins and where it ends, and hands the
two places to `xml_parse_value`. The end is found by `skip_pass`, which goes back over the spaces
before the character it stopped at, and does not look whether it comes before the beginning.

What `xml_parse_value` makes of a range is a parameter here.

## Main definitions

* `skipPassAt` — `skip_pass`
* `xmlParseItemAt`, `xmlParseOptionalAt`, `parseAttrAt` — the reader, with the ranges it hands over
* `BlankValue`, `BlankKey` — nothing but spaces where a value is

## Main results

* `wellFormed_iff` — where `skip_pass` goes too far
* `valueRanges_wellFormed_iff` — the reader does so exactly before a value or a key of spaces
-/

set_option autoImplicit false

namespace Yalantinglibs.Iguana

variable {α κ ν : Type}

/-! ### Ranges -/

/-- A range of a text, from one place to another; there is no other where the way back from the end
finds nothing but spaces. -/
@[ext] structure ValueRange where
  valueBegin : TextCursor
  valueEnd : Option TextCursor
  deriving DecidableEq, Repr

/-- The range begins in the text, and ends in it no earlier. -/
def ValueRange.WellFormed (r : ValueRange) : Prop :=
  ∃ valueEnd, r.valueEnd = some valueEnd ∧ valueEnd.text = r.valueBegin.text ∧
    r.valueBegin.pos ≤ valueEnd.pos ∧ valueEnd.pos ≤ r.valueBegin.text.length

/-- What a part of the reader comes to, and the ranges it hands over on the way. -/
structure Handing (α : Type) where
  ranges : List ValueRange
  result : Except Fault α

namespace Handing

/-- A part that hands over no range. -/
def ofExcept (result : Except Fault α) : Handing α := ⟨[], result⟩

/-- A range is handed over to `xml_parse_value`. -/
def handOver (parse : ValueRange → Except Fault α) (r : ValueRange) : Handing α := ⟨[r], parse r⟩

/-- One part after the other. -/
def bind {β : Type} (m : Handing α) (f : α → Handing β) : Handing β :=
  match m.result with
  | .ok a => ⟨m.ranges ++ (f a).ranges, (f a).result⟩
  | .error e => ⟨m.ranges, .error e⟩

end Handing

/-! ### The reader -/

/-- `skip_sapces_and_newline`. -/
def skipSapcesAndNewlineAt (cur : TextCursor) : TextCursor := cur.skipWhile fun c => c.toNat < 33

/-- `skip_till<c>`. -/
def skipTillAt (c : UInt8) (cur : TextCursor) : Except Fault TextCursor :=
  (skipTill c cur.it).map cur.advance

/-- `skip_pass<c>`: where it goes back to, and the place behind the character. -/
def skipPassAt (c : UInt8) (cur : TextCursor) : Except Fault (Option TextCursor × TextCursor) :=
  (skipTillAt c cur).map fun stop => (stop.back fun d => d = space, stop.next)

/-- `match_close_tag`. -/
def matchCloseTagAt (name : Bytes) (cur : TextCursor) : Except Fault TextCursor :=
  (matchCloseTag name cur.it).map cur.advance

/-- `xml_parse_item` for a plain value. -/
def xmlParseItemAt (parse : ValueRange → Except Fault α) (name : Bytes) (cur : TextCursor) :
    Handing (α × TextCursor) :=
  (Handing.ofExcept (skipTillAt greater cur)).bind fun cur =>
    let valueBegin := skipSapcesAndNewlineAt cur.next
    (Handing.ofExcept (skipPassAt smaller valueBegin)).bind fun p =>
      (Handing.handOver parse ⟨valueBegin, p.1⟩).bind fun v =>
        .ofExcept ((matchCloseTagAt name p.2).map fun it => (v, it))

/-- `xml_parse_item` for an optional with a plain value. -/
def xmlParseOptionalAt (parse : ValueRange → Except Fault α) (name : Bytes) (value : Option α)
    (cur : TextCursor) : Handing (Option α × TextCursor) :=
  (Handing.ofExcept (skipTillAt greater cur)).bind fun cur =>
    if cur.prev = slash then .ofExcept (.ok (value, cur.next))
    else
      (Handing.ofExcept (skipTillAt greater cur)).bind fun cur =>
        let valueBegin := skipSapcesAndNewlineAt cur.next
        (Handing.ofExcept (skipPassAt smaller valueBegin)).bind fun p =>
          if p.1 = some valueBegin then
            .ofExcept ((matchCloseTagAt name p.2).map fun it => (value, it))
          else
            (Handing.handOver parse ⟨valueBegin, p.1⟩).bind fun v =>
              .ofExcept ((matchCloseTagAt name p.2).map fun it => (some v, it))

section Attributes

variable [DecidableEq κ] (parseKey : ValueRange → Except Fault κ)
  (parseValue : ValueRange → Except Fault ν)

/-- The value of an attribute, behind the `'='`. -/
def parseAttrValueAt (cur : TextCursor) : Handing (ν × TextCursor) :=
  let cur := skipSapcesAndNewlineAt cur
  match cur.it with
  | [] => .ofExcept (raise "expected quote or apos")
  | q :: _ =>
    if q = quote ∨ q = apos then
      (Handing.ofExcept (skipPassAt q cur.next)).bind fun p =>
        (Handing.handOver parseValue ⟨cur.next, p.1⟩).bind fun v => .ofExcept (.ok (v, p.2))
    else .ofExcept (raise "expected quote or apos")

/-- One round of `parse_attr`: what the key and the value of an attribute are and what follows, or
the end of the attributes. -/
def parseAttrRoundAt (cur : TextCursor) : Handing (Option (κ × ν) × TextCursor) :=
  let cur := skipSapcesAndNewlineAt cur
  if cur.it.head? = some greater ∨ cur.it.head? = some slash then .ofExcept (.ok (none, cur))
  else
    (Handing.ofExcept (skipPassAt equal cur)).bind fun p =>
      (Handing.handOver parseKey ⟨cur, p.1⟩).bind fun k =>
        (parseAttrValueAt parseValue p.2).bind fun v => .ofExcept (.ok (some (k, v.1), v.2))

/-- The loop of `parse_attr`. -/
def parseAttrLoopAt : ℕ → List (κ × ν) → TextCursor → Handing (List (κ × ν) × TextCursor)
  | n, value, cur =>
    if cur.it = [] then .ofExcept (.ok (value, cur))
    else
      match n with
      | 0 => .ofExcept (.error .tooDeep)
      | n + 1 =>
        (parseAttrRoundAt parseKey parseValue cur).bind fun p =>
          match p.1 with
          | none => .ofExcept (.ok (value, p.2))
          | some (k, v) =>
            -- `emplace` leaves a key that is there
            parseAttrLoopAt n (if k ∈ value.map Prod.fst then value else value ++ [(k, v)]) p.2

/-- `parse_attr`. -/
def parseAttrAt (value : List (κ × ν)) (cur : TextCursor) : Handing (List (κ × ν) × TextCursor) :=
  parseAttrLoopAt parseKey parseValue cur.it.length value cur

end Attributes

/-! ### Where `skip_pass` goes back to -/

section SkipPass

variable {c : UInt8} {before bs it : Bytes}

theorem skipTillAt_append (h : c ∉ bs) (before it : Bytes) :
    skipTillAt c ⟨before, bs ++ c :: it⟩ = .ok ⟨bs.reverse ++ before, c :: it⟩ := by
  rw [skipTillAt, skipTill_append h, Except.map, TextCursor.advance_append]

theorem skipTillAt_of_eq {cur : TextCursor} (hit : cur.it = bs ++ c :: it) (h : c ∉ bs) :
    skipTillAt c cur = .ok ⟨bs.reverse ++ cur.before, c :: it⟩ := by
  obtain ⟨before, it'⟩ := cur
  subst hit
  exact skipTillAt_append h before it

theorem skipTillAt_self (c : UInt8) (before it : Bytes) :
    skipTillAt c ⟨before, c :: it⟩ = .ok ⟨before, c :: it⟩ :=
  skipTillAt_append List.not_mem_nil before it

theorem skipTillAt_of_notMem (before : Bytes) (h : c ∉ it) :
    ∃ e, skipTillAt c ⟨before, it⟩ = .error e := by
  have hnone : scanTail (fun d => d = c) it = none := by
    refine scanTail_eq_none fun d hd => decide_eq_false ?_
    rintro rfl
    exact h hd
  rw [skipTillAt, skipTill, scan_eq fun chunk hlen => marks_hasByteOf c hlen, hnone]
  exact ⟨_, rfl⟩

/-- The range that `skip_pass` finds. -/
def passRange (before bs it : Bytes) : ValueRange :=
  ⟨⟨before, bs ++ it⟩, TextCursor.back (fun d => d = space) ⟨bs.reverse ++ before, it⟩⟩

theorem skipPassAt_append (h : c ∉ bs) (before it : Bytes) :
    skipPassAt c ⟨before, bs ++ c :: it⟩ =
      .ok ((passRange before bs (c :: it)).valueEnd, ⟨c :: (bs.reverse ++ before), it⟩) := by
  rw [skipPassAt, skipTillAt_append h]
  rfl

theorem skipPassAt_of_notMem (before : Bytes) (h : c ∉ it) :
    ∃ e, skipPassAt c ⟨before, it⟩ = .error e := by
  obtain ⟨e, he⟩ := skipTillAt_of_notMem before h
  rw [skipPassAt, he]
  exact ⟨e, rfl⟩

theorem passRange_text :
    TextCursor.text ⟨bs.reverse ++ before, it⟩ = TextCursor.text ⟨before, bs ++ it⟩ := by
  simp [TextCursor.text]

/-- The range is one if there is a character that is no space before its end, and this character
stands in the range or right before it. -/
theorem wellFormed_iff :
    (passRange before bs it).WellFormed ↔
      (∃ d ∈ bs, d ≠ space) ∨ ∃ d, before.head? = some d ∧ d ≠ space := by
  -- what the way back finds lies in the text, so that only its place matters
  have hiff : (passRange before bs it).WellFormed ↔
      ∃ e, TextCursor.back (fun d => d = space) ⟨bs.reverse ++ before, it⟩ = some e ∧
        before.length ≤ e.pos := by
    constructor
    · rintro ⟨e, hback, -, hle, -⟩
      exact ⟨e, hback, hle⟩
    · rintro ⟨e, hback, hle⟩
      obtain ⟨htext, -⟩ := TextCursor.back_spec hback
      have htext' := htext.trans passRange_text
      refine ⟨e, hback, htext', hle, ?_⟩
      rw [← show e.text = (passRange before bs it).valueBegin.text from htext']
      simp [TextCursor.text, TextCursor.pos]
  rw [hiff]
  by_cases hbs : ∃ d ∈ bs, d ≠ space
  · have hmem : ∃ d ∈ bs.reverse, decide (d = space) = false := by simpa using hbs
    exact iff_of_true (TextCursor.exists_back_of_mem hmem) (.inl hbs)
  · have hall : ∀ d ∈ bs.reverse, decide (d = space) = true := by simpa using hbs
    rw [TextCursor.back_append_of_forall hall, List.reverse_reverse, or_iff_right hbs]
    cases before with
    | nil => simp
    | cons d before =>
      by_cases hd : d = space
      · -- the way goes on before the beginning
        rw [TextCursor.back_cons_of_pos (decide_eq_true hd)]
        refine iff_of_false ?_ ?_
        · rintro ⟨e, hback, hle⟩
          exact absurd (hle.trans (TextCursor.back_spec hback).2) (Nat.not_succ_le_self _)
        · rintro ⟨d', hd', hne⟩
          exact hne (Option.some.inj hd' ▸ hd)
      · rw [TextCursor.back_cons_of_neg (decide_eq_false hd)]
        exact iff_of_true ⟨_, rfl, le_rfl⟩ ⟨d, rfl, hd⟩

/-- There are only blanks before the character, and the last of them, or what precedes them, is a
space. -/
def BlankUpTo (c : UInt8) (cur : TextCursor) : Prop :=
  ∃ w r, cur.it = w ++ c :: r ∧ (∀ d ∈ w, d.toNat < 33) ∧
    ∀ d, (w.reverse ++ cur.before).head? = some d → d = space

theorem skipSapcesAndNewlineAt_append {w r : Bytes} (hw : ∀ d ∈ w, d.toNat < 33)
    (hr : ∀ d, r.head? = some d → 33 ≤ d.toNat) :
    skipSapcesAndNewlineAt ⟨before, w ++ r⟩ = ⟨w.reverse ++ before, r⟩ := by
  have hw' : ∀ d ∈ w, decide (d.toNat < 33) = true := fun d hd => decide_eq_true (hw d hd)
  have hr' : r.takeWhile (fun d => d.toNat < 33) = [] ∧
      r.dropWhile (fun d => d.toNat < 33) = r := by
    cases r with
    | nil => exact ⟨rfl, rfl⟩
    | cons d r => simp [Nat.not_lt.mpr (hr d rfl)]
  rw [skipSapcesAndNewlineAt, TextCursor.skipWhile_eq, List.takeWhile_append_of_pos hw',
    List.dropWhile_append_of_pos hw', hr'.1, hr'.2, List.append_nil]

/-- Behind the blanks at a place. -/
theorem exists_skipSapcesAndNewlineAt (cur : TextCursor) :
    ∃ w r, cur.it = w ++ r ∧ (∀ d ∈ w, d.toNat < 33) ∧ (∀ d, r.head? = some d → 33 ≤ d.toNat) ∧
      skipSapcesAndNewlineAt cur = ⟨w.reverse ++ cur.before, r⟩ := by
  obtain ⟨before, it⟩ := cur
  refine ⟨it.takeWhile fun d => d.toNat < 33, it.dropWhile fun d => d.toNat < 33,
    List.takeWhile_append_dropWhile.symm, ?_, ?_, TextCursor.skipWhile_eq before it⟩
  · exact fun d hd => of_decide_eq_true (List.all_eq_true.mp List.all_takeWhile d hd)
  · intro d hd
    have hnot := List.head?_dropWhile_not (fun d : UInt8 => decide (d.toNat < 33)) it
    rw [hd] at hnot
    simpa using hnot

theorem blankUpTo_iff (hc : 33 ≤ c.toNat) (cur : TextCursor) :
    BlankUpTo c cur ↔ (skipSapcesAndNewlineAt cur).it.head? = some c ∧
      ∀ d, (skipSapcesAndNewlineAt cur).before.head? = some d → d = space := by
  obtain ⟨before, it⟩ := cur
  constructor
  · rintro ⟨w, r, rfl, hw, hspace⟩
    rw [skipSapcesAndNewlineAt_append hw fun d hd => by rwa [← Option.some.inj hd]]
    exact ⟨rfl, hspace⟩
  · obtain ⟨w, r, hit, hw, -, hcur⟩ := exists_skipSapcesAndNewlineAt ⟨before, it⟩
    rw [hcur]
    rintro ⟨hhead, hspace⟩
    obtain ⟨r, rfl⟩ := List.head?_eq_some_iff.mp hhead
    exact ⟨w, r, hit, hw, hspace⟩

/-- Behind blanks, the range up to a character is one unless it is empty behind a space. -/
theorem skipPassAt_wellFormed_iff (hc : 33 ≤ c.toNat) (cur : TextCursor) :
    (∀ p, skipPassAt c (skipSapcesAndNewlineAt cur) = .ok p →
        ValueRange.WellFormed ⟨skipSapcesAndNewlineAt cur, p.1⟩) ↔ ¬ BlankUpTo c cur := by
  rw [blankUpTo_iff hc]
  obtain ⟨w, r, -, -, hr, hcur⟩ := exists_skipSapcesAndNewlineAt cur
  rw [hcur]
  by_cases hmem : c ∈ r
  · obtain ⟨bs, rest, rfl, hbs⟩ := List.eq_append_cons_of_mem hmem
    have hrange : (∀ p, skipPassAt c ⟨w.reverse ++ cur.before, bs ++ c :: rest⟩ = .ok p →
        ValueRange.WellFormed ⟨⟨w.reverse ++ cur.before, bs ++ c :: rest⟩, p.1⟩) ↔
          (passRange (w.reverse ++ cur.before) bs (c :: rest)).WellFormed := by
      rw [skipPassAt_append hbs]
      exact ⟨fun h => h _ rfl, fun h p hp => Except.ok.inj hp ▸ h⟩
    rw [hrange, wellFormed_iff]
    cases bs with
    | nil => simp
    | cons b bs =>
      have hb : b ≠ space := by
        rintro rfl
        exact absurd (hr space rfl) (by decide)
      refine iff_of_true (.inl ⟨b, List.mem_cons_self, hb⟩) ?_
      rintro ⟨hhead, -⟩
      exact hbs (Option.some.inj hhead ▸ List.mem_cons_self)
  · obtain ⟨e, he⟩ := skipPassAt_of_notMem (w.reverse ++ cur.before) hmem
    refine iff_of_true (fun p hp => ?_) ?_
    · rw [he] at hp
      cases hp
    · rintro ⟨hhead, -⟩
      exact hmem (List.mem_of_mem_head? hhead)

/-- What `skip_pass` finds. -/
theorem exists_of_skipPassAt {p : Option TextCursor × TextCursor}
    (h : skipPassAt c ⟨before, it⟩ = .ok p) :
    ∃ bs rest, it = bs ++ c :: rest ∧ c ∉ bs ∧
      p = ((passRange before bs (c :: rest)).valueEnd, ⟨c :: (bs.reverse ++ before), rest⟩) := by
  by_cases hmem : c ∈ it
  · obtain ⟨bs, rest, rfl, hbs⟩ := List.eq_append_cons_of_mem hmem
    rw [skipPassAt_append hbs] at h
    exact ⟨bs, rest, rfl, hbs, (Except.ok.inj h).symm⟩
  · obtain ⟨e, he⟩ := skipPassAt_of_notMem before hmem
    cases he.symm.trans h

/-- Behind anything but a space, the range up to a character is one. -/
theorem skipPassAt_wellFormed {d : UInt8} (hd : d ≠ space) {p : Option TextCursor × TextCursor}
    (h : skipPassAt c ⟨d :: before, it⟩ = .ok p) :
    ValueRange.WellFormed ⟨⟨d :: before, it⟩, p.1⟩ := by
  obtain ⟨bs, rest, rfl, -, rfl⟩ := exists_of_skipPassAt h
  exact wellFormed_iff.mpr (.inr ⟨d, rfl, hd⟩)

end SkipPass

/-! ### What is handed over -/

namespace Handing

variable {β : Type} {m : Handing α} {f : α → Handing β}

/-- Every range that is handed over is one. -/
def WellFormed (m : Handing α) : Prop := ∀ r ∈ m.ranges, r.WellFormed

@[simp] theorem wellFormed_ofExcept (result : Except Fault α) : (ofExcept result).WellFormed := by
  intro r hr
  cases hr

@[simp] theorem wellFormed_handOver (parse : ValueRange → Except Fault α) (r : ValueRange) :
    (handOver parse r).WellFormed ↔ r.WellFormed := by
  constructor
  · exact fun h => h r (List.mem_singleton.mpr rfl)
  · intro h r' hr'
    exact List.mem_singleton.mp hr' ▸ h

theorem wellFormed_bind :
    (m.bind f).WellFormed ↔ m.WellFormed ∧ ∀ a, m.result = .ok a → (f a).WellFormed := by
  rw [bind]
  cases m.result with
  | ok a =>
    constructor
    · intro h
      refine ⟨fun r hr => h r (List.mem_append_left _ hr), fun a' ha' r hr => ?_⟩
      cases ha'
      exact h r (List.mem_append_right _ hr)
    · rintro ⟨hm, hf⟩ r hr
      rcases List.mem_append.mp hr with hr | hr
      · exact hm r hr
      · exact hf a rfl r hr
  | error e => exact ⟨fun h => ⟨h, nofun⟩, fun h => h.1⟩

theorem bind_result_eq_ok {b : β} :
    (m.bind f).result = .ok b ↔ ∃ a, m.result = .ok a ∧ (f a).result = .ok b := by
  rw [bind]
  cases m.result with
  | ok a => exact ⟨fun h => ⟨a, rfl, h⟩, fun ⟨a', ha', h⟩ => Except.ok.inj ha' ▸ h⟩
  | error e => exact ⟨nofun, fun ⟨_, ha', _⟩ => nomatch ha'⟩

/-- Nothing is handed over before what follows. -/
theorem wellFormed_ofExcept_bind (result : Except Fault α) :
    ((ofExcept result).bind f).WellFormed ↔ ∀ a, result = .ok a → (f a).WellFormed := by
  rw [wellFormed_bind]
  exact and_iff_right (wellFormed_ofExcept result)

theorem wellFormed_handOver_bind {parse : ValueRange → Except Fault α} {r : ValueRange}
    (hf : ∀ a, (f a).WellFormed) : ((handOver parse r).bind f).WellFormed ↔ r.WellFormed := by
  rw [wellFormed_bind, wellFormed_handOver]
  exact and_iff_left fun a _ => hf a

end Handing

/-! ### Items -/

section Items

variable {before it : Bytes} {parse : ValueRange → Except Fault α} {name : Bytes}

/-- Behind the first `'>'` of a tag there are only blanks before the next `'<'`, and the last of
them is a space. -/
def BlankValue (cur : TextCursor) : Prop :=
  ∃ p it, cur.it = p ++ greater :: it ∧ greater ∉ p ∧
    BlankUpTo smaller ⟨greater :: (p.reverse ++ cur.before), it⟩

/-- The first `'>'` closes the tag without a value. -/
def SelfClosed (cur : TextCursor) : Prop :=
  ∃ p it, cur.it = p ++ greater :: it ∧ greater ∉ p ∧ (p.reverse ++ cur.before).headD 0 = slash

/-- The `'>'` of a tag. -/
theorem forall_skipTillAt {P : TextCursor → Prop} {c : UInt8} (cur : TextCursor) :
    (∀ stop, skipTillAt c cur = .ok stop → P stop) ↔
      ∀ p it, cur.it = p ++ c :: it → c ∉ p → P ⟨p.reverse ++ cur.before, c :: it⟩ := by
  obtain ⟨before, it⟩ := cur
  constructor
  · rintro h p it rfl hp
    exact h _ (skipTillAt_append hp before it)
  · intro h stop hstop
    by_cases hmem : c ∈ it
    · obtain ⟨p, rest, rfl, hp⟩ := List.eq_append_cons_of_mem hmem
      cases (skipTillAt_append hp before rest).symm.trans hstop
      exact h p rest rfl hp
    · obtain ⟨e, he⟩ := skipTillAt_of_notMem before hmem
      cases he.symm.trans hstop

/-- The range of a value behind the `'>'` of its tag. -/
theorem blankUpTo_smaller_iff (cur : TextCursor) :
    (∀ p, skipPassAt smaller (skipSapcesAndNewlineAt cur) = .ok p →
        ValueRange.WellFormed ⟨skipSapcesAndNewlineAt cur, p.1⟩) ↔ ¬ BlankUpTo smaller cur :=
  skipPassAt_wellFormed_iff (by decide) cur

/-- What `xml_parse_item` hands over is a range unless the value is only blanks that end with a
space. -/
theorem xmlParseItemAt_wellFormed_iff (cur : TextCursor) :
    (xmlParseItemAt parse name cur).WellFormed ↔ ¬ BlankValue cur := by
  have htag : (xmlParseItemAt parse name cur).WellFormed ↔
      ∀ stop, skipTillAt greater cur = .ok stop → ¬ BlankUpTo smaller stop.next := by
    rw [xmlParseItemAt, Handing.wellFormed_ofExcept_bind]
    refine forall₂_congr fun stop _ => ?_
    rw [Handing.wellFormed_ofExcept_bind, ← blankUpTo_smaller_iff]
    exact forall₂_congr fun p _ =>
      Handing.wellFormed_handOver_bind fun v => Handing.wellFormed_ofExcept _
  rw [htag, forall_skipTillAt]
  constructor
  · rintro h ⟨p, it, hit, hp, hblank⟩
    exact h p it hit hp hblank
  · intro h p it hit hp hblank
    exact h ⟨p, it, hit, hp, hblank⟩

/-- So is what it hands over for an optional, where the tag has a value. -/
theorem xmlParseOptionalAt_wellFormed_iff (value : Option α) (cur : TextCursor) :
    (xmlParseOptionalAt parse name value cur).WellFormed ↔
      (BlankValue cur → SelfClosed cur) := by
  have htag : (xmlParseOptionalAt parse name value cur).WellFormed ↔
      ∀ stop, skipTillAt greater cur = .ok stop → stop.prev ≠ slash →
        ∀ stop', skipTillAt greater stop = .ok stop' → ¬ BlankUpTo smaller stop'.next := by
    rw [xmlParseOptionalAt, Handing.wellFormed_ofExcept_bind]
    refine forall₂_congr fun stop _ => ?_
    by_cases hslash : stop.prev = slash
    · rw [if_pos hslash]
      exact iff_of_true (Handing.wellFormed_ofExcept _) fun hne => absurd hslash hne
    rw [if_neg hslash, Handing.wellFormed_ofExcept_bind, forall_prop_of_true hslash]
    refine forall₂_congr fun stop' _ => ?_
    rw [Handing.wellFormed_ofExcept_bind, ← blankUpTo_smaller_iff]
    refine forall₂_congr fun p _ => ?_
    split
    case isTrue hempty =>
      -- an empty range is one, though it is not handed over
      rw [hempty]
      refine iff_of_true (Handing.wellFormed_ofExcept _) ⟨_, rfl, rfl, le_rfl, ?_⟩
      simp [TextCursor.text, TextCursor.pos]
    case isFalse => exact Handing.wellFormed_handOver_bind fun v => Handing.wellFormed_ofExcept _
  rw [htag, forall_skipTillAt]
  constructor
  · rintro h ⟨p, it, hit, hp, hblank⟩
    by_contra hclosed
    exact h p it hit hp (fun hslash => hclosed ⟨p, it, hit, hp, hslash⟩) _
      (skipTillAt_self greater _ it) hblank
  · intro h p it hit hp hslash stop' hstop' hblank
    cases (skipTillAt_self greater _ it).symm.trans hstop'
    obtain ⟨p', it', hit', hp', hslash'⟩ := h ⟨p, it, hit, hp, hblank⟩
    -- the `'>'` that closes the tag is the one the value follows
    have hsame := (skipTillAt_of_eq hit hp).symm.trans (skipTillAt_of_eq hit' hp')
    rw [Except.ok.injEq, TextCursor.mk.injEq] at hsame
    rw [← hsame.1] at hslash'
    exact hslash hslash'

end Items

/-! ### Attributes -/

section Attributes

variable [DecidableEq κ] {parseKey : ValueRange → Except Fault κ}
  {parseValue : ValueRange → Except Fault ν} {before : Bytes} {cur cur' : TextCursor}

/-- The reader takes an attribute: blanks, a key that ends at its `'='`, and blanks and a value in
quotes or apostrophes. -/
inductive Attribute (parseKey : ValueRange → Except Fault κ)
    (parseValue : ValueRange → Except Fault ν) : TextCursor → TextCursor → Prop
  | intro {before w key w' value rest : Bytes} {q : UInt8} {k : κ} {v : ν}
      (hw : ∀ d ∈ w, d.toNat < 33) (hw' : ∀ d ∈ w', d.toNat < 33)
      (hhead : ∀ d, (key ++ [equal]).head? = some d → 33 ≤ d.toNat ∧ d ≠ greater ∧ d ≠ slash)
      (hequal : equal ∉ key) (hq : q = quote ∨ q = apos) (hquote : q ∉ value)
      (hkey : parseKey (passRange (w.reverse ++ before) key
        (equal :: (w' ++ q :: (value ++ q :: rest)))) = .ok k)
      (hvalue : parseValue (passRange (q :: (w'.reverse ++ equal :: (key.reverse ++
        (w.reverse ++ before)))) value (q :: rest)) = .ok v) :
      Attribute parseKey parseValue
        ⟨before, w ++ (key ++ equal :: (w' ++ q :: (value ++ q :: rest)))⟩
        ⟨q :: (value.reverse ++ q :: (w'.reverse ++ equal :: (key.reverse ++
          (w.reverse ++ before)))), rest⟩

/-- The reader comes, over attributes, to one of which the key is empty behind a space. -/
inductive BlankKey (parseKey : ValueRange → Except Fault κ)
    (parseValue : ValueRange → Except Fault ν) : TextCursor → Prop
  | here {cur : TextCursor} (h : BlankUpTo equal cur) : BlankKey parseKey parseValue cur
  | behind {cur cur' : TextCursor} (h : Attribute parseKey parseValue cur cur')
      (h' : BlankKey parseKey parseValue cur') : BlankKey parseKey parseValue cur

omit [DecidableEq κ] in
theorem Attribute.length_lt (h : Attribute parseKey parseValue cur cur') :
    cur'.it.length < cur.it.length := by
  cases h with
  | intro =>
    simp only [List.length_append, List.length_cons]
    omega

theorem parseAttrValueAt_wellFormed (cur : TextCursor) :
    (parseAttrValueAt parseValue cur).WellFormed := by
  rw [parseAttrValueAt]
  split
  · exact Handing.wellFormed_ofExcept _
  case h_2 q it hit =>
    split
    case isFalse => exact Handing.wellFormed_ofExcept _
    case isTrue hq =>
      rw [Handing.wellFormed_ofExcept_bind]
      intro p hp
      rw [Handing.wellFormed_handOver_bind fun v => Handing.wellFormed_ofExcept _]
      -- the quote before the value ends the way back
      generalize skipSapcesAndNewlineAt cur = stop at hit hp
      obtain ⟨before, it'⟩ := stop
      subst hit
      exact skipPassAt_wellFormed (by rcases hq with rfl | rfl <;> decide) hp

omit [DecidableEq κ] in
theorem parseAttrRoundAt_wellFormed_iff (cur : TextCursor) :
    (parseAttrRoundAt parseKey parseValue cur).WellFormed ↔ ¬ BlankUpTo equal cur := by
  rw [parseAttrRoundAt]
  split
  case isTrue hend =>
    refine iff_of_true (Handing.wellFormed_ofExcept _) fun hblank => ?_
    rw [((blankUpTo_iff (by decide) cur).mp hblank).1] at hend
    exact absurd hend (by decide)
  case isFalse =>
    rw [Handing.wellFormed_ofExcept_bind, ← skipPassAt_wellFormed_iff (by decide)]
    refine forall₂_congr fun p _ => Handing.wellFormed_handOver_bind fun k => ?_
    rw [Handing.wellFormed_bind]
    exact ⟨parseAttrValueAt_wellFormed _, fun v _ => Handing.wellFormed_ofExcept _⟩

theorem parseAttrValueAt_of_cons {q : UInt8} {it : Bytes}
    (hcur : skipSapcesAndNewlineAt cur = ⟨before, q :: it⟩) (hq : q = quote ∨ q = apos) :
    parseAttrValueAt parseValue cur =
      (Handing.ofExcept (skipPassAt q ⟨q :: before, it⟩)).bind fun p =>
        (Handing.handOver parseValue ⟨⟨q :: before, it⟩, p.1⟩).bind fun v =>
          .ofExcept (.ok (v, p.2)) := by
  rw [parseAttrValueAt, hcur]
  exact if_pos hq

/-- The value of an attribute that the reader takes. -/
theorem parseAttrValueAt_result {v : ν} :
    (parseAttrValueAt parseValue cur).result = .ok (v, cur') ↔
      ∃ w value rest q, cur.it = w ++ q :: (value ++ q :: rest) ∧ (∀ d ∈ w, d.toNat < 33) ∧
        (q = quote ∨ q = apos) ∧ q ∉ value ∧
        parseValue (passRange (q :: (w.reverse ++ cur.before)) value (q :: rest)) = .ok v ∧
        cur' = ⟨q :: (value.reverse ++ q :: (w.reverse ++ cur.before)), rest⟩ := by
  constructor
  · intro h
    obtain ⟨w, r, hit, hw, -, hcur⟩ := exists_skipSapcesAndNewlineAt cur
    cases r with
    | nil =>
      rw [parseAttrValueAt, hcur] at h
      cases h
    | cons q r =>
      by_cases hq : q = quote ∨ q = apos
      · rw [parseAttrValueAt_of_cons hcur hq, Handing.bind_result_eq_ok] at h
        obtain ⟨p, hp, h⟩ := h
        obtain ⟨v', hv', hend⟩ := Handing.bind_result_eq_ok.mp h
        obtain ⟨value, rest, rfl, hquote, rfl⟩ := exists_of_skipPassAt hp
        cases hend
        exact ⟨w, value, rest, q, hit, hw, hq, hquote, hv', rfl⟩
      · rw [parseAttrValueAt, hcur] at h
        cases (congrArg Handing.result (if_neg hq)).symm.trans h
  · rintro ⟨w, value, rest, q, hit, hw, hq, hquote, hv, rfl⟩
    obtain ⟨before, it⟩ := cur
    subst hit
    have hcur : skipSapcesAndNewlineAt ⟨before, w ++ q :: (value ++ q :: rest)⟩ =
        ⟨w.reverse ++ before, q :: (value ++ q :: rest)⟩ :=
      skipSapcesAndNewlineAt_append hw fun d hd => by
        rw [← Option.some.inj hd]
        rcases hq with rfl | rfl <;> decide
    rw [parseAttrValueAt_of_cons hcur hq, skipPassAt_append hquote, Handing.bind_result_eq_ok]
    exact ⟨_, rfl, Handing.bind_result_eq_ok.mpr ⟨v, hv, rfl⟩⟩

omit [DecidableEq κ] in
/-- An attribute that the reader takes is one. -/
theorem attribute_of_parseAttrRoundAt {kv : κ × ν}
    (h : (parseAttrRoundAt parseKey parseValue cur).result = .ok (some kv, cur')) :
    Attribute parseKey parseValue cur cur' := by
  obtain ⟨w, r, hit, hw, hr, hcur⟩ := exists_skipSapcesAndNewlineAt cur
  rw [parseAttrRoundAt, hcur] at h
  split at h
  case isTrue => cases h
  case isFalse hend =>
    obtain ⟨p, hp, h⟩ := Handing.bind_result_eq_ok.mp h
    obtain ⟨k, hk, h⟩ := Handing.bind_result_eq_ok.mp h
    obtain ⟨⟨v, cur₁⟩, hv, h⟩ := Handing.bind_result_eq_ok.mp h
    cases h
    obtain ⟨key, r', rfl, hequal, rfl⟩ := exists_of_skipPassAt hp
    obtain ⟨w', value, rest, q, rfl, hw', hq, hquote, hvalue, rfl⟩ := parseAttrValueAt_result.mp hv
    obtain ⟨before, it⟩ := cur
    subst hit
    refine .intro hw hw' (fun d hd => ?_) hequal hq hquote hk hvalue
    have hd' : (key ++ equal :: (w' ++ q :: (value ++ q :: rest))).head? = some d := by
      cases key <;> exact hd
    refine ⟨hr d hd', fun hg => hend (.inl ?_), fun hs => hend (.inr ?_)⟩
    · exact hd'.trans (congrArg some hg)
    · exact hd'.trans (congrArg some hs)

omit [DecidableEq κ] in
/-- The reader takes an attribute. -/
theorem parseAttrRoundAt_of_attribute (h : Attribute parseKey parseValue cur cur') :
    ∃ kv, (parseAttrRoundAt parseKey parseValue cur).result = .ok (some kv, cur') := by
  cases h with
  | @intro before w key w' value rest q k v hw hw' hhead hequal hq hquote hkey hvalue =>
    have hd {d : UInt8} (hd : (key ++ equal :: (w' ++ q :: (value ++ q :: rest))).head? = some d) :
        33 ≤ d.toNat ∧ d ≠ greater ∧ d ≠ slash := hhead d (by cases key <;> exact hd)
    have hend : ¬ ((key ++ equal :: (w' ++ q :: (value ++ q :: rest))).head? = some greater ∨
        (key ++ equal :: (w' ++ q :: (value ++ q :: rest))).head? = some slash) := by
      rintro (hg | hs)
      · exact (hd hg).2.1 rfl
      · exact (hd hs).2.2 rfl
    refine ⟨(k, v), ?_⟩
    rw [parseAttrRoundAt, skipSapcesAndNewlineAt_append hw fun d hd' => (hd hd').1]
    refine (congrArg Handing.result (if_neg hend)).trans ?_
    refine Handing.bind_result_eq_ok.mpr ⟨_, skipPassAt_append hequal _ _, ?_⟩
    refine Handing.bind_result_eq_ok.mpr ⟨k, hkey, ?_⟩
    refine Handing.bind_result_eq_ok.mpr ⟨(v, _), parseAttrValueAt_result.mpr ?_, rfl⟩
    exact ⟨w', value, rest, q, rfl, hw', hq, hquote, hvalue, rfl⟩

omit [DecidableEq κ] in
theorem not_blankKey_of_nil (h : cur.it = []) : ¬ BlankKey parseKey parseValue cur := by
  intro hblank
  cases hblank with
  | here hblank =>
    obtain ⟨w, r, hit, -⟩ := hblank
    rw [h] at hit
    simp at hit
  | behind hattr _ =>
    have hlt := hattr.length_lt
    rw [h] at hlt
    cases hlt

theorem parseAttrLoopAt_wellFormed_iff (n : ℕ) (value : List (κ × ν)) (cur : TextCursor)
    (hn : cur.it.length ≤ n) :
    (parseAttrLoopAt parseKey parseValue n value cur).WellFormed ↔
      ¬ BlankKey parseKey parseValue cur := by
  induction n generalizing value cur with
  | zero =>
    have hnil := List.length_eq_zero_iff.mp (Nat.le_zero.mp hn)
    rw [parseAttrLoopAt, if_pos hnil]
    exact iff_of_true (Handing.wellFormed_ofExcept _) (not_blankKey_of_nil hnil)
  | succ n ih =>
    by_cases hnil : cur.it = []
    · rw [parseAttrLoopAt, if_pos hnil]
      exact iff_of_true (Handing.wellFormed_ofExcept _) (not_blankKey_of_nil hnil)
    rw [parseAttrLoopAt, if_neg hnil, Handing.wellFormed_bind, parseAttrRoundAt_wellFormed_iff]
    constructor
    · rintro ⟨hhere, hbehind⟩ hblank
      cases hblank with
      | here h => exact hhere h
      | behind hattr h =>
        obtain ⟨kv, hkv⟩ := parseAttrRoundAt_of_attribute hattr
        exact (ih _ _ (Nat.le_of_lt_succ (hattr.length_lt.trans_le hn))).mp (hbehind _ hkv) h
    · intro hblank
      refine ⟨fun h => hblank (.here h), fun p hp => ?_⟩
      obtain ⟨kv | ⟨k, v⟩, cur'⟩ := p
      · exact Handing.wellFormed_ofExcept _
      · have hattr := attribute_of_parseAttrRoundAt hp
        exact (ih _ _ (Nat.le_of_lt_succ (hattr.length_lt.trans_le hn))).mpr
          fun h => hblank (.behind hattr h)

end Attributes

/-- Every range that the three parts of the reader hand over is one, exactly where no value of an
item is blanks that end with a space, and no key of an attribute is empty behind a space. -/
theorem valueRanges_wellFormed_iff [DecidableEq κ] (parse : ValueRange → Except Fault α)
    (parseKey : ValueRange → Except Fault κ) (parseValue : ValueRange → Except Fault ν)
    (name : Bytes) (value : Option α) (attrs : List (κ × ν)) (cur : TextCursor) :
    ((xmlParseItemAt parse name cur).WellFormed ↔ ¬ BlankValue cur) ∧
      ((xmlParseOptionalAt parse name value cur).WellFormed ↔
        (BlankValue cur → SelfClosed cur)) ∧
      ((parseAttrAt parseKey parseValue attrs cur).WellFormed ↔
        ¬ BlankKey parseKey parseValue cur) :=
  ⟨xmlParseItemAt_wellFormed_iff cur, xmlParseOptionalAt_wellFormed_iff value cur,
    parseAttrLoopAt_wellFormed_iff _ _ _ le_rfl⟩

/-- A value of one space, `"> </a>"`, and a key that is missing, `" =\"v\">"`. -/
theorem not_wellFormed_blankRanges :
    ¬ (xmlParseItemAt (fun _ => .ok ()) [0x61]
        ⟨[0x61, smaller], [greater, space, smaller, slash, 0x61, greater]⟩).WellFormed ∧
      ¬ (parseAttrAt (fun _ => .ok 0) (fun _ => .ok ()) ([] : List (ℕ × Unit))
        ⟨[0x61, smaller], [space, equal, quote, 0x76, quote, greater]⟩).WellFormed := by
  constructor
  · rw [xmlParseItemAt_wellFormed_iff, not_not]
    refine ⟨[], _, rfl, List.not_mem_nil, [space], _, rfl, by decide, ?_⟩
    rintro d ⟨⟩
    rfl
  · rw [parseAttrAt, parseAttrLoopAt_wellFormed_iff _ _ _ le_rfl, not_not]
    refine .here ⟨[space], _, rfl, by decide, ?_⟩
    rintro d ⟨⟩
    rfl

end Yalantinglibs.Iguana
