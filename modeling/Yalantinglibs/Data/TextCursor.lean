import Yalantinglibs.Data.ByteCodec

/-!
# A place in a text

A scanner that looks back needs the characters before its place as well as those behind it. The
characters before the place are kept in reverse, nearest first; before the text there may be
anything.

## Main definitions

* `TextCursor` — a place
* `TextCursor.next`, `TextCursor.skipWhile`, `TextCursor.advance` — going on
* `TextCursor.back` — going back

## Main results

* `text_next`, `text_skipWhile` — the text stays the same
* `skipWhile_it` — what is left behind a run
* `back_spec`, `exists_back_of_mem` — where the way back ends
-/

set_option autoImplicit false

namespace Yalantinglibs

/-- A place in a text: what stands before it, nearest first, and what follows. -/
@[ext] structure TextCursor where
  before : Bytes
  it : Bytes
  deriving DecidableEq, Repr

namespace TextCursor

/-- The whole text. -/
def text (cur : TextCursor) : Bytes := cur.before.reverse ++ cur.it

/-- The character before the place. -/
def prev (cur : TextCursor) : UInt8 := cur.before.headD 0

/-- One character on. -/
def next : TextCursor → TextCursor
  | ⟨before, []⟩ => ⟨before, []⟩
  | ⟨before, c :: it⟩ => ⟨c :: before, it⟩

/-- How much stands before the place. -/
def pos (cur : TextCursor) : ℕ := cur.before.length

/-- Where `it` is left of the text. -/
def advance (cur : TextCursor) (it : Bytes) : TextCursor :=
  ⟨(cur.it.take (cur.it.length - it.length)).reverse ++ cur.before, it⟩

private def skip (p : UInt8 → Bool) : Bytes → Bytes → TextCursor
  | before, [] => ⟨before, []⟩
  | before, c :: it => if p c then skip p (c :: before) it else ⟨before, c :: it⟩

/-- Behind a run of characters. -/
def skipWhile (p : UInt8 → Bool) (cur : TextCursor) : TextCursor := skip p cur.before cur.it

private def backFrom (p : UInt8 → Bool) : Bytes → Bytes → Option TextCursor
  | [], _ => none
  | c :: before, it => if p c then backFrom p before (c :: it) else some ⟨c :: before, it⟩

/-- Back over a run of characters; there may be nothing but the run before the place. -/
def back (p : UInt8 → Bool) (cur : TextCursor) : Option TextCursor := backFrom p cur.before cur.it

@[simp] theorem next_nil (before : Bytes) : next ⟨before, []⟩ = ⟨before, []⟩ := rfl

@[simp] theorem next_cons (before : Bytes) (c : UInt8) (it : Bytes) :
    next ⟨before, c :: it⟩ = ⟨c :: before, it⟩ := rfl

@[simp] theorem prev_cons (c : UInt8) (before it : Bytes) : prev ⟨c :: before, it⟩ = c := rfl

variable {p : UInt8 → Bool} {c : UInt8} {before it : Bytes}

@[simp] theorem skipWhile_nil : skipWhile p ⟨before, []⟩ = ⟨before, []⟩ := rfl

theorem skipWhile_cons_of_pos (h : p c = true) :
    skipWhile p ⟨before, c :: it⟩ = skipWhile p ⟨c :: before, it⟩ := if_pos h

theorem skipWhile_cons_of_neg (h : p c = false) :
    skipWhile p ⟨before, c :: it⟩ = ⟨before, c :: it⟩ := by
  rw [skipWhile, skip, h, if_neg Bool.false_ne_true]

/-- The place behind a run. -/
theorem skipWhile_eq (before it : Bytes) :
    skipWhile p ⟨before, it⟩ = ⟨(it.takeWhile p).reverse ++ before, it.dropWhile p⟩ := by
  induction it generalizing before with
  | nil => rfl
  | cons c it ih =>
    cases h : p c with
    | true =>
      rw [skipWhile_cons_of_pos h, ih, List.dropWhile_cons_of_pos h, List.takeWhile_cons_of_pos h,
        List.reverse_cons, List.append_assoc]
      rfl
    | false =>
      have hnot : ¬ p c = true := by rw [h]; exact Bool.false_ne_true
      rw [skipWhile_cons_of_neg h, List.dropWhile_cons_of_neg hnot,
        List.takeWhile_cons_of_neg hnot]
      rfl

/-- What is left behind a run. -/
theorem skipWhile_it (cur : TextCursor) : (cur.skipWhile p).it = cur.it.dropWhile p := by
  obtain ⟨before, it⟩ := cur
  rw [skipWhile_eq]

theorem skipWhile_suffix (cur : TextCursor) : (cur.skipWhile p).it <:+ cur.it := by
  rw [skipWhile_it]
  exact List.dropWhile_suffix p

theorem next_it (cur : TextCursor) : cur.next.it = cur.it.tail := by
  obtain ⟨before, it⟩ := cur
  cases it <;> rfl

theorem next_suffix (cur : TextCursor) : cur.next.it <:+ cur.it := by
  rw [next_it]
  exact List.tail_suffix _

theorem skipWhile_length_le (cur : TextCursor) : (cur.skipWhile p).it.length ≤ cur.it.length :=
  (skipWhile_suffix cur).length_le

/-- A run that is not empty leaves less. -/
theorem skipWhile_length_lt (h : p c = true) :
    (skipWhile p ⟨before, c :: it⟩).it.length < (c :: it).length := by
  rw [skipWhile_cons_of_pos h]
  exact (skipWhile_length_le _).trans_lt (Nat.lt_succ_self _)

/-- What stands before the place behind a run that is not empty. -/
theorem prev_skipWhile (h : p c = true) : p (skipWhile p ⟨before, c :: it⟩).prev = true := by
  rw [skipWhile_cons_of_pos h]
  induction it generalizing before c with
  | nil => exact h
  | cons d it ih =>
    cases hd : p d with
    | true =>
      rw [skipWhile_cons_of_pos hd]
      exact ih hd
    | false =>
      rw [skipWhile_cons_of_neg hd]
      exact h

/-- A property of places that one character of a run does not change holds behind the run. -/
theorem skipWhile_induction {P : TextCursor → Prop}
    (hstep : ∀ c before it, p c = true → P ⟨before, c :: it⟩ → P ⟨c :: before, it⟩)
    {cur : TextCursor}
    (h : P cur) : P (cur.skipWhile p) := by
  obtain ⟨before, it⟩ := cur
  induction it generalizing before with
  | nil => exact h
  | cons c it ih =>
    cases hc : p c with
    | true =>
      rw [skipWhile_cons_of_pos hc]
      exact ih _ (hstep c before it hc h)
    | false =>
      rw [skipWhile_cons_of_neg hc]
      exact h

@[simp] theorem advance_append (bs : Bytes) :
    advance ⟨before, bs ++ it⟩ it = ⟨bs.reverse ++ before, it⟩ := by
  rw [advance, List.length_append, Nat.add_sub_cancel, List.take_left]

/-! ### Going back -/

@[simp] theorem back_nil : back p ⟨[], it⟩ = none := rfl

theorem back_cons_of_pos (h : p c = true) : back p ⟨c :: before, it⟩ = back p ⟨before, c :: it⟩ :=
  if_pos h

theorem back_cons_of_neg (h : p c = false) :
    back p ⟨c :: before, it⟩ = some ⟨c :: before, it⟩ := by
  rw [back, backFrom, h, if_neg Bool.false_ne_true]

/-- The way back stays in the text, and goes back. -/
theorem back_spec {cur cur' : TextCursor} (h : cur.back p = some cur') :
    cur'.text = cur.text ∧ cur'.pos ≤ cur.pos := by
  obtain ⟨before, it⟩ := cur
  induction before generalizing it with
  | nil => cases h
  | cons c before ih =>
    cases hc : p c with
    | true =>
      rw [back_cons_of_pos hc] at h
      obtain ⟨htext, hpos⟩ := ih _ h
      refine ⟨htext.trans ?_, hpos.trans (Nat.le_succ _)⟩
      simp [text]
    | false =>
      rw [back_cons_of_neg hc, Option.some.injEq] at h
      subst h
      exact ⟨rfl, le_rfl⟩

/-- The way back ends no later than behind the last character that stops it. -/
theorem exists_back_of_mem {run : Bytes} (h : ∃ d ∈ run, p d = false) :
    ∃ cur', back p ⟨run ++ before, it⟩ = some cur' ∧ before.length ≤ cur'.pos := by
  induction run generalizing it with
  | nil => simp at h
  | cons c run ih =>
    rw [List.cons_append]
    cases hc : p c with
    | true =>
      rw [back_cons_of_pos hc]
      refine ih ?_
      simpa [hc] using h
    | false =>
      refine ⟨_, back_cons_of_neg hc, ?_⟩
      simp [pos]
      omega

/-- The way back over a run. -/
theorem back_append_of_forall {run : Bytes} (h : ∀ d ∈ run, p d = true) :
    back p ⟨run ++ before, it⟩ = back p ⟨before, run.reverse ++ it⟩ := by
  induction run generalizing it with
  | nil => rfl
  | cons c run ih =>
    rw [List.cons_append, back_cons_of_pos (h c List.mem_cons_self),
      ih fun d hd => h d (List.mem_cons_of_mem _ hd), List.reverse_cons, List.append_assoc]
    rfl

end TextCursor

end Yalantinglibs
