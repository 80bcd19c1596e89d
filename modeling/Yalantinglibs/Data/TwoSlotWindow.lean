import Mathlib.Algebra.Order.Ring.Nat
import Mathlib.Data.List.Basic

/-!
# A time window of two slots

Items are put into the front one of two slots. Where a period has passed since the last turn, the
other slot is emptied and becomes the front one; where two periods have passed, both are emptied.
The turn is made at the time of a call, so it is not on a multiple of the period.

## Main definitions

* `Window`, `Window.refresh`, `Window.put` — the slots, a turn, and what is put into them
* `Window.run` — calls one behind the other, each with what it puts
* `Window.Valid` — what holds between calls

## Main results

* `valid_run` — the window is valid behind each run
* `kept_suffix`, `lt_of_mem_kept` — what is kept is a suffix of what was put, with all items of less
  than a period and none of three
* `ge_of_mem_kept` — nothing is kept over two periods without call
-/

set_option autoImplicit false

namespace TwoSlotWindow

variable {α : Type*} {period start last now since : ℕ} {past items : List (ℕ × α)}

/-- The time of the last turn, and the timed items of both slots. -/
structure Window (α : Type*) where
  tp : ℕ
  front : List (ℕ × α) := []
  back : List (ℕ × α) := []

/-- A call: its time, and what it puts. -/
abbrev Call (α : Type*) := ℕ × List α

namespace Window

def refresh (period now : ℕ) (w : Window α) : Window α :=
  if period ≤ now - w.tp then
    if 2 * period ≤ now - w.tp then ⟨now, [], []⟩ else ⟨now, [], w.front⟩
  else w

def put (now : ℕ) (items : List α) (w : Window α) : Window α :=
  { w with front := w.front ++ items.map fun a => (now, a) }

def call (period : ℕ) (w : Window α) (c : Call α) : Window α :=
  (w.refresh period c.1).put c.1 c.2

def run (period : ℕ) (w : Window α) (calls : List (Call α)) : Window α :=
  calls.foldl (call period) w

/-- What is in the window, the oldest first. -/
def kept (w : Window α) : List (ℕ × α) := w.back ++ w.front

/-- Behind a call at the time `last`, where `past` was put so far, and nothing is kept from before
`since`. -/
structure Valid (period : ℕ) (past : List (ℕ × α)) (since last : ℕ) (w : Window α) : Prop where
  tp_le : w.tp ≤ last
  lt_tp : last < w.tp + period
  suffix : ∃ dropped, past = dropped ++ w.kept ∧ ∀ a ∈ dropped, a.1 + period ≤ last
  front : ∀ a ∈ w.front, w.tp ≤ a.1 ∧ a.1 ≤ last
  back : ∀ a ∈ w.back, w.tp < a.1 + 2 * period ∧ a.1 ≤ w.tp
  since : ∀ a ∈ w.kept, since ≤ a.1

end Window

/-- What the calls put. -/
def history (calls : List (Call α)) : List (ℕ × α) :=
  calls.flatMap fun c => c.2.map fun a => (c.1, a)

variable {w : Window α} {calls : List (Call α)}

theorem valid_start (hperiod : 0 < period) (since start : ℕ) :
    (⟨start, [], []⟩ : Window α).Valid period [] since start where
  tp_le := le_rfl
  lt_tp := Nat.lt_add_of_pos_right hperiod
  suffix := ⟨[], rfl, fun _ h => absurd h List.not_mem_nil⟩
  front := fun _ h => absurd h List.not_mem_nil
  back := fun _ h => absurd h List.not_mem_nil
  since := fun _ h => absurd h List.not_mem_nil

/-- Behind a turn both slots are empty, or what was in front is in the back. -/
theorem refresh_cases (w : Window α) (period now : ℕ) :
    (now - w.tp < period ∧ w.refresh period now = w) ∨
    (period ≤ now - w.tp ∧ now - w.tp < 2 * period ∧ w.refresh period now = ⟨now, [], w.front⟩) ∨
    (period ≤ now - w.tp ∧ 2 * period ≤ now - w.tp ∧ w.refresh period now = ⟨now, [], []⟩) := by
  unfold Window.refresh
  by_cases hone : period ≤ now - w.tp
  · rw [if_pos hone]
    by_cases htwo : 2 * period ≤ now - w.tp
    · rw [if_pos htwo]
      exact .inr (.inr ⟨hone, htwo, rfl⟩)
    · rw [if_neg htwo]
      exact .inr (.inl ⟨hone, Nat.not_le.mp htwo, rfl⟩)
  · rw [if_neg hone]
    exact .inl ⟨Nat.not_le.mp hone, rfl⟩

/-- An item of a slot that is emptied was put a period ago. -/
theorem valid_refresh (hw : w.Valid period past since last) (hnow : last ≤ now) :
    (w.refresh period now).Valid period past since now := by
  obtain ⟨htp, hlt, ⟨dropped, hpast, hdropped⟩, hfront, hback, hsince⟩ := hw
  have hperiod : 0 < period := by omega
  have hold : ∀ a ∈ dropped, a.1 + period ≤ now := fun a ha => (hdropped a ha).trans hnow
  rcases refresh_cases w period now with ⟨hshort, heq⟩ | ⟨hone, htwo, heq⟩ | ⟨hone, htwo, heq⟩
  · rw [heq]
    refine ⟨htp.trans hnow, by omega, ⟨dropped, hpast, hold⟩, fun a ha => ?_, hback, hsince⟩
    exact ⟨(hfront a ha).1, (hfront a ha).2.trans hnow⟩
  · -- the back slot is dropped, and its items are from before the last turn
    rw [heq]
    refine ⟨le_rfl, Nat.lt_add_of_pos_right hperiod, ⟨dropped ++ w.back, ?_, fun a ha => ?_⟩,
      fun a ha => absurd ha List.not_mem_nil, fun a ha => ?_, fun a ha => ?_⟩
    · rw [hpast, Window.kept, Window.kept, List.append_nil, List.append_assoc]
    · rcases List.mem_append.mp ha with ha | ha
      · exact hold a ha
      · have := (hback a ha).2
        omega
    · have := hfront a ha
      dsimp only
      omega
    · refine hsince a (List.mem_append_right _ ?_)
      rwa [Window.kept, List.append_nil] at ha
  · rw [heq]
    refine ⟨le_rfl, Nat.lt_add_of_pos_right hperiod,
      ⟨past, (List.append_nil _).symm, fun a ha => ?_⟩,
      fun a ha => absurd ha List.not_mem_nil, fun a ha => absurd ha List.not_mem_nil,
      fun a ha => absurd ha List.not_mem_nil⟩
    rw [hpast, Window.kept] at ha
    rcases List.mem_append.mp ha with ha | ha
    · exact hold a ha
    rcases List.mem_append.mp ha with ha | ha
    · have := (hback a ha).2
      omega
    · have := (hfront a ha).2
      omega

/-- Two periods behind the last call nothing is left. -/
theorem refresh_idle (hw : w.Valid period past since last) (hidle : last + 2 * period ≤ now) :
    w.refresh period now = ⟨now, [], []⟩ := by
  have htp := hw.tp_le
  have hone : period ≤ now - w.tp := by omega
  have htwo : 2 * period ≤ now - w.tp := by omega
  rw [Window.refresh, if_pos hone, if_pos htwo]

theorem valid_put (hw : w.Valid period past since now) (hsince : since ≤ now) (items : List α) :
    (w.put now items).Valid period (past ++ items.map fun a => (now, a)) since now := by
  obtain ⟨htp, hlt, ⟨dropped, hpast, hdropped⟩, hfront, hback, hkept⟩ := hw
  have htime : ∀ a ∈ items.map fun a => (now, a), a.1 = now := by
    intro a ha
    obtain ⟨b, -, rfl⟩ := List.mem_map.mp ha
    rfl
  refine ⟨htp, hlt, ⟨dropped, ?_, hdropped⟩, fun a ha => ?_, hback, fun a ha => ?_⟩
  · rw [hpast, Window.kept, Window.kept, Window.put, List.append_assoc, List.append_assoc]
  · rcases List.mem_append.mp ha with ha | ha
    · exact hfront a ha
    · rw [htime a ha]
      exact ⟨htp, le_rfl⟩
  · rw [Window.kept, Window.put, ← List.append_assoc] at ha
    rcases List.mem_append.mp ha with ha | ha
    · exact hkept a ha
    · rw [htime a ha]
      exact hsince

theorem put_nil (now : ℕ) (w : Window α) : w.put now [] = w := by
  rw [Window.put, List.map_nil, List.append_nil]

theorem history_cons (c : Call α) (calls : List (Call α)) :
    history (c :: calls) = c.2.map (fun a => (c.1, a)) ++ history calls := List.flatMap_cons

/-- The time of the last call, or of the start. -/
def lastTime (start : ℕ) (calls : List (Call α)) : ℕ := (calls.map Prod.fst).getLastD start

theorem lastTime_cons (start : ℕ) (c : Call α) (calls : List (Call α)) :
    lastTime start (c :: calls) = lastTime c.1 calls := by
  rw [lastTime, List.map_cons, List.getLastD_cons]
  rfl

theorem lastTime_mem (start : ℕ) (calls : List (Call α)) :
    lastTime start calls ∈ start :: calls.map Prod.fst := by
  induction calls generalizing start with
  | nil => exact List.mem_cons_self
  | cons c calls ih =>
    rw [lastTime_cons]
    exact List.mem_cons_of_mem _ (ih c.1)

/-- Calls one behind the other keep the window valid. -/
theorem valid_run (hw : w.Valid period past since start) (hsince : since ≤ start)
    (hsorted : (start :: calls.map Prod.fst).Pairwise (· ≤ ·)) :
    (w.run period calls).Valid period (past ++ history calls) since (lastTime start calls) := by
  induction calls generalizing w past start with
  | nil =>
    rw [history, List.flatMap_nil, List.append_nil]
    exact hw
  | cons c calls ih =>
    rw [List.map_cons, List.pairwise_cons] at hsorted
    have hstart : start ≤ c.1 := hsorted.1 c.1 List.mem_cons_self
    have hput := valid_put (valid_refresh hw hstart) (hsince.trans hstart) c.2
    rw [history_cons, ← List.append_assoc, lastTime_cons]
    exact ih hput (hsince.trans hstart) hsorted.2

section Run

variable (hperiod : 0 < period)
  (hsorted : (start :: (calls.map Prod.fst ++ [now])).Pairwise (· ≤ ·))
include hperiod hsorted

theorem valid_run_refresh :
    (((⟨start, [], []⟩ : Window α).run period calls).refresh period now).Valid period
      (history calls) 0 now := by
  rw [← List.cons_append, List.pairwise_append] at hsorted
  have hrun := valid_run (valid_start (α := α) hperiod 0 start) (Nat.zero_le _) hsorted.1
  rw [List.nil_append] at hrun
  exact valid_refresh hrun (hsorted.2.2 _ (lastTime_mem start calls) now List.mem_cons_self)

/-- What is kept is a suffix of what was put, and nothing else was put within a period. -/
theorem kept_suffix :
    ∃ dropped, history calls =
        dropped ++ (((⟨start, [], []⟩ : Window α).run period calls).refresh period now).kept ∧
      ∀ a ∈ dropped, a.1 + period ≤ now :=
  (valid_run_refresh hperiod hsorted).suffix

/-- Nothing is kept for three periods. -/
theorem lt_of_mem_kept {a : ℕ × α}
    (ha : a ∈ (((⟨start, [], []⟩ : Window α).run period calls).refresh period now).kept) :
    a.1 ≤ now ∧ now < a.1 + 3 * period := by
  have hw := valid_run_refresh hperiod hsorted
  have htp := hw.tp_le
  have hlt := hw.lt_tp
  rcases List.mem_append.mp ha with ha | ha
  · have := hw.back a ha
    omega
  · have := hw.front a ha
    omega

/-- Where no call is made for two periods, nothing is kept from before them. -/
theorem ge_of_mem_kept {before after : List (Call α)} (hcalls : calls = before ++ after)
    (hidle : lastTime start before + 2 * period ≤ (after.map Prod.fst).headD now) {a : ℕ × α}
    (ha : a ∈ (((⟨start, [], []⟩ : Window α).run period calls).refresh period now).kept) :
    (after.map Prod.fst).headD now ≤ a.1 := by
  subst hcalls
  rw [List.map_append, List.append_assoc, ← List.cons_append, List.pairwise_append] at hsorted
  obtain ⟨hbefore, hafter, -⟩ := hsorted
  have hrun := valid_run (valid_start (α := α) hperiod 0 start) (Nat.zero_le _) hbefore
  rw [Window.run, List.foldl_append] at ha
  cases after with
  | nil =>
    rw [List.map_nil, List.headD_nil] at hidle
    rw [List.foldl_nil] at ha
    rw [← Window.run, refresh_idle hrun hidle] at ha
    exact absurd ha List.not_mem_nil
  | cons c after =>
    -- the first call behind the pause empties both slots, as at the start
    rw [List.map_cons, List.headD_cons] at hidle ⊢
    rw [List.foldl_cons] at ha
    rw [← Window.run, ← Window.run, Window.call, refresh_idle hrun hidle] at ha
    rw [List.map_cons, List.cons_append, ← List.cons_append, List.pairwise_append] at hafter
    have hput := valid_put (valid_start (α := α) hperiod c.1 c.1) le_rfl c.2
    have hlast := valid_run hput le_rfl hafter.1
    have hnow := hafter.2.2 _ (lastTime_mem c.1 after) now List.mem_cons_self
    exact (valid_refresh hlast hnow).since a ha

end Run

end TwoSlotWindow
