import Mathlib.Data.List.Infix
import Mathlib.Order.Nat
import Yalantinglibs.Data.ByteCodec
import Yalantinglibs.Data.SlotLog
import Yalantinglibs.Data.TransitionSystem

/-!
# Rotation of log files

`roll_log_files` of `easylog/appender.hpp` removes the file with the highest number, renames the
others to the next number from the highest on, and opens a new file. It is called where the file was
found too large, by the thread that writes or before a record is written. A step is the test with
the removal, one rename, the opening, or the writing of a record.

What is in the buffer of the stream counts as written, and files are removed, renamed and opened
without errors.

## Main definitions

* `buildFilename` — the name of each file
* `State`, `Action`, `step` — an appender, with the records that each file is to hold
* `Kept` — what the files hold

## Main results

* `rotates` — the files hold the last records in order, each in one file, at every moment
-/

set_option autoImplicit false

namespace Yalantinglibs.EasyLog.Rotation

open SlotLog

/-! ### Names -/

/-- The file name that is given, of which the directory is left out. -/
structure LogPath where
  stem : List Char
  extension : List Char

def LogPath.buildFilename (p : LogPath) (fileNumber : ℕ) : List Char :=
  if fileNumber = 0 then p.stem ++ p.extension
  else p.stem ++ '.' :: Nat.toDigits 10 fileNumber ++ p.extension

theorem buildFilename_injective (p : LogPath) : Function.Injective p.buildFilename := by
  intro i j h
  have hdigits : ∀ {i j : ℕ}, Nat.toDigits 10 i = Nat.toDigits 10 j → i = j := by
    intro i j h
    rw [← @Nat.ofDigitChars_ten_toDigits i, h, Nat.ofDigitChars_ten_toDigits]
  unfold LogPath.buildFilename at h
  split_ifs at h with hi hj hj
  · rw [hi, hj]
  · have := congrArg List.length h
    simp only [List.length_append, List.length_cons] at this
    omega
  · have := congrArg List.length h
    simp only [List.length_append, List.length_cons] at this
    omega
  · exact hdigits (List.cons.inj (List.append_cancel_left (List.append_cancel_right h))).2

/-! ### The appender -/

def bomStr : Bytes := [0xEF, 0xBB, 0xBF]

/-- `record_t`, in the parts that are written. -/
structure Record where
  time : Bytes
  tid : Bytes
  file : Bytes
  message : Bytes

def Record.bytes (r : Record) : Bytes := r.time ++ r.tid ++ r.file ++ r.message

/-- The files of the directory, and what is known of the one that is open. Beside them stand the
records of each file, and all records. -/
structure State where
  files : List Char → Option Bytes
  fileSize : ℕ
  /-- the renames that are left in `roll_log_files` -/
  rolling : Option ℕ
  slots : ℕ → Option (List Record)
  written : List Record

inductive Action
  /-- the file is found too large, and the last one is removed -/
  | roll
  | rename
  /-- `open_log_file` at the end of `roll_log_files` -/
  | reopen
  | write (r : Record)

section Appender

variable (p : LogPath) (maxFileSize maxFiles : ℕ)

/-- `max_files_` -/
def cap (maxFiles : ℕ) : ℕ := min maxFiles 1000

/-- `std::filesystem::rename`, whose error is left unread. -/
def renameFile (files : List Char → Option Bytes) (current next : List Char) :
    List Char → Option Bytes :=
  match files current with
  | none => files
  | some content => Function.update (Function.update files next (some content)) current none

/-- A file that is empty or new begins with the byte order mark. -/
def State.openLogFile (s : State) : State :=
  let filename := p.buildFilename 0
  let content := (s.files filename).getD []
  let content := if content.length = 0 then content ++ bomStr else content
  { s with
    files := Function.update s.files filename (some content)
    fileSize := content.length
    slots := Function.update s.slots 0 (some ((s.slots 0).getD [])) }

/-- `write_file` -/
def State.writeFile (s : State) (str : Bytes) : State :=
  { s with
    files := Function.update s.files (p.buildFilename 0)
      (some ((s.files (p.buildFilename 0)).getD [] ++ str))
    fileSize := s.fileSize + str.length }

def step (s : State) : Action → Option State
  | .roll =>
    if s.rolling = none ∧ 0 < maxFiles ∧ maxFileSize < s.fileSize ∧ s.fileSize ≠ 2 ^ 64 - 1 then
      some { s with
        files := Function.update s.files (p.buildFilename (maxFiles - 1)) none
        rolling := some (maxFiles - 1)
        slots := clear (maxFiles - 1) s.slots }
    else none
  | .rename =>
    match s.rolling with
    | some (fileNumber + 1) =>
      some { s with
        files := renameFile s.files (p.buildFilename fileNumber)
          (p.buildFilename (fileNumber + 1))
        rolling := some fileNumber
        slots := moveUp fileNumber s.slots }
    | _ => none
  | .reopen =>
    match s.rolling with
    | some 0 => some ({ s with rolling := none }.openLogFile p)
    | _ => none
  | .write r =>
    match s.rolling with
    | none =>
      let s := (((s.writeFile p r.time).writeFile p r.tid).writeFile p r.file).writeFile p r.message
      some { s with slots := push r s.slots, written := s.written ++ [r] }
    | some _ => none

/-- The constructor, in a directory with files of an earlier run. -/
def State.new (files : List Char → Option Bytes) (slots : ℕ → Option (List Record)) : State :=
  State.openLogFile p ⟨files, 0, none, slots, concat (cap maxFiles) slots⟩

def system (files : List Char → Option Bytes) (slots : ℕ → Option (List Record)) :
    TransitionSystem State Action :=
  ⟨State.new p maxFiles files slots, step p maxFileSize (cap maxFiles)⟩

end Appender

/-! ### What the files hold -/

/-- A file of the log: the byte order mark and records, or nothing at all. -/
def Holds (file : Option Bytes) (records : Option (List Record)) : Prop :=
  match file, records with
  | none, none => True
  | some content, some rs =>
    content = bomStr ++ rs.flatMap Record.bytes ∨ content = [] ∧ rs = []
  | _, _ => False

section Kept

variable (p : LogPath) (maxFileSize n : ℕ) (files : List Char → Option Bytes)

/-- The files up to the last one hold the last records. No other file is touched, and each file but
the newest was too large when it was renamed, unless it is of the earlier run. -/
structure Kept (s : State) : Prop where
  holds : ∀ i < n, Holds (s.files (p.buildFilename i)) (s.slots i)
  suffix : concat n s.slots <:+ s.written
  others : ∀ name, (∀ i < n, name ≠ p.buildFilename i) → s.files name = files name
  size : ∀ i content, 1 ≤ i → i < n → s.files (p.buildFilename i) = some content →
    maxFileSize < content.length ∨ ∃ j, 1 ≤ j ∧ j ≤ i ∧ files (p.buildFilename j) = some content

/-- A rotation drops the records of the last file; a record that is written comes to the end. -/
def Moves (s : State) (a : Action) (s' : State) : Prop :=
  match a with
  | .roll => concat n s.slots = (s.slots (n - 1)).getD [] ++ concat n s'.slots ∧
      s'.written = s.written
  | .rename => concat n s'.slots = concat n s.slots ∧ s'.written = s.written
  | .reopen => concat n s'.slots = concat n s.slots ∧ s'.written = s.written
  | .write r => concat n s'.slots = concat n s.slots ++ [r] ∧ s'.written = s.written ++ [r]

/-- The file that is open, and where a rotation stands. -/
structure Invariant (s : State) : Prop extends Kept p maxFileSize n files s where
  idle : s.rolling = none → ∃ rs, s.slots 0 = some rs ∧
    s.files (p.buildFilename 0) = some (bomStr ++ rs.flatMap Record.bytes) ∧
    s.fileSize = (bomStr ++ rs.flatMap Record.bytes).length
  busy : ∀ k, s.rolling = some k → k < n ∧ s.slots k = none ∧
    (0 < k → ∃ content, s.files (p.buildFilename 0) = some content ∧ maxFileSize < content.length)

end Kept

variable {p : LogPath} {maxFileSize n : ℕ} {files : List Char → Option Bytes} {s s' : State}
  {a : Action}

theorem Holds.none_iff {file : Option Bytes} {records : Option (List Record)}
    (h : Holds file records) : records = none ↔ file = none := by
  cases file with
  | none =>
    cases records with
    | none => exact iff_of_true rfl rfl
    | some rs => exact absurd h id
  | some content =>
    cases records with
    | none => exact absurd h id
    | some rs => exact iff_of_false (by simp) (by simp)

/-- The file of one number, behind an update of the file of another. -/
theorem update_buildFilename {i j : ℕ} (h : i ≠ j) (content : Option Bytes) :
    Function.update files (p.buildFilename j) content (p.buildFilename i) =
      files (p.buildFilename i) :=
  Function.update_of_ne ((buildFilename_injective p).ne h) _ _

/-- What an update of one file changes. -/
theorem others_update {f : List Char → Option Bytes} {j : ℕ} (hj : j < n)
    (h : ∀ name, (∀ i < n, name ≠ p.buildFilename i) → f name = files name)
    (content : Option Bytes) (name : List Char) (hname : ∀ i < n, name ≠ p.buildFilename i) :
    Function.update f (p.buildFilename j) content name = files name := by
  rw [Function.update_of_ne (hname j hj)]
  exact h name hname

/-- A rename moves a file to the next number. -/
theorem renameFile_buildFilename (p : LogPath) (f : List Char → Option Bytes) (k i : ℕ) :
    renameFile f (p.buildFilename k) (p.buildFilename (k + 1)) (p.buildFilename i) =
      moveUp k (fun i => f (p.buildFilename i)) i := by
  unfold renameFile moveUp
  dsimp only
  cases f (p.buildFilename k) with
  | none => rfl
  | some content =>
    dsimp only [clear]
    by_cases hi : i = k
    · rw [hi, Function.update_self, Function.update_self]
    · rw [update_buildFilename hi, Function.update_of_ne hi]
      by_cases hi' : i = k + 1
      · rw [hi', Function.update_self, Function.update_self]
      · rw [update_buildFilename hi', Function.update_of_ne hi']

/-- Files that are moved as their records are. -/
theorem holds_moveUp {f : ℕ → Option Bytes} {slots : ℕ → Option (List Record)} {k : ℕ}
    (hf : ∀ i < n, Holds (f i) (slots i)) (hk : k + 1 < n) (hnext : slots (k + 1) = none) :
    ∀ i < n, Holds (moveUp k f i) (moveUp k slots i) := by
  have hnext' : f (k + 1) = none := (hf (k + 1) hk).none_iff.mp hnext
  intro i hi
  by_cases hik : i = k
  · rw [hik, moveUp_self, moveUp_self]
    trivial
  by_cases hik' : i = k + 1
  · rw [hik', moveUp_succ hnext, moveUp_succ hnext']
    exact hf k (Nat.lt_of_succ_lt hk)
  · rw [moveUp_of_ne hik hik', moveUp_of_ne hik hik']
    exact hf i hi

theorem renameFile_of_ne {f : List Char → Option Bytes} {current next name : List Char}
    (hcurrent : name ≠ current) (hnext : name ≠ next) :
    renameFile f current next name = f name := by
  unfold renameFile
  cases f current with
  | none => rfl
  | some content =>
    dsimp only
    rw [Function.update_of_ne hcurrent, Function.update_of_ne hnext]

theorem concat_update_nil {slots : ℕ → Option (List Record)} (h : slots 0 = none) :
    concat n (Function.update slots 0 (some [])) = concat n slots := by
  refine concat_congr fun i _ => ?_
  by_cases hi : i = 0
  · rw [hi, Function.update_self, h]
    rfl
  · rw [Function.update_of_ne hi]

section Steps

variable (h : Invariant p maxFileSize (n + 1) files s)
include h

theorem Invariant.roll (hroll : s.rolling = none) (hsize : maxFileSize < s.fileSize) :
    Invariant p maxFileSize (n + 1) files
      { s with
        files := Function.update s.files (p.buildFilename n) none
        rolling := some n
        slots := clear n s.slots } := by
  obtain ⟨rs, hslot, hfile, hlength⟩ := h.idle hroll
  refine ⟨⟨fun i hi => ?_, ?_, ?_, fun i content hone hi hcontent => ?_⟩, fun hnone => ?_,
    fun k hk => ?_⟩
  · dsimp only
    by_cases hin : i = n
    · rw [hin, clear, Function.update_self, Function.update_self]
      trivial
    · rw [clear, update_buildFilename hin, Function.update_of_ne hin]
      exact h.holds i hi
  · have hconcat := concat_clear_last n s.slots
    refine List.IsSuffix.trans ?_ h.suffix
    rw [hconcat]
    exact List.suffix_append _ _
  · exact others_update (Nat.lt_succ_self n) h.others none
  · dsimp only at hcontent
    by_cases hin : i = n
    · rw [hin, Function.update_self] at hcontent
      cases hcontent
    · rw [update_buildFilename hin] at hcontent
      exact h.size i content hone hi hcontent
  · cases hnone
  · obtain rfl := Option.some.inj hk
    refine ⟨Nat.lt_succ_self n, Function.update_self _ _ _,
      fun hpos => ⟨bomStr ++ rs.flatMap Record.bytes, ?_, ?_⟩⟩
    · dsimp only
      rw [update_buildFilename (Nat.ne_of_lt hpos)]
      exact hfile
    · rw [← hlength]
      exact hsize

theorem Invariant.rename {k : ℕ} (hroll : s.rolling = some (k + 1)) :
    Invariant p maxFileSize (n + 1) files
      { s with
        files := renameFile s.files (p.buildFilename k) (p.buildFilename (k + 1))
        rolling := some k
        slots := moveUp k s.slots } := by
  obtain ⟨hk, hnext, hlarge⟩ := h.busy _ hroll
  have hkn : k < n + 1 := Nat.lt_of_succ_lt hk
  have hnext' := (h.holds (k + 1) hk).none_iff.mp hnext
  refine ⟨⟨fun i hi => ?_, ?_, fun name hname => ?_, fun i content hone hi hcontent => ?_⟩,
    fun hidle => ?_, fun k' hk' => ?_⟩
  · dsimp only
    rw [renameFile_buildFilename]
    exact holds_moveUp h.holds hk hnext i hi
  · dsimp only
    rw [concat_moveUp hnext hk]
    exact h.suffix
  · dsimp only
    rw [renameFile_of_ne (hname k (Nat.lt_of_succ_lt hk)) (hname (k + 1) hk)]
    exact h.others name hname
  · dsimp only at hcontent
    rw [renameFile_buildFilename] at hcontent
    by_cases hik : i = k
    · rw [hik, moveUp_self] at hcontent
      cases hcontent
    by_cases hik' : i = k + 1
    · subst hik'
      rw [moveUp_succ hnext'] at hcontent
      rcases Nat.eq_zero_or_pos k with rfl | hpos
      · -- the file that was open
        obtain ⟨c, hc, hsize⟩ := hlarge Nat.one_pos
        obtain rfl := Option.some.inj (hc.symm.trans hcontent)
        exact .inl hsize
      · refine (h.size k content hpos (Nat.lt_of_succ_lt hk) hcontent).imp_right ?_
        intro ⟨j, hj, hle, hold⟩
        exact ⟨j, hj, Nat.le_succ_of_le hle, hold⟩
    · rw [moveUp_of_ne hik hik'] at hcontent
      exact h.size i content hone hi hcontent
  · cases hidle
  · obtain rfl := Option.some.inj hk'
    refine ⟨Nat.lt_of_succ_lt hk, moveUp_self, fun hpos => ?_⟩
    obtain ⟨content, hfile, hsize⟩ := hlarge (Nat.succ_pos k)
    refine ⟨content, ?_, hsize⟩
    dsimp only
    rw [renameFile_buildFilename, moveUp_of_ne (Nat.ne_of_lt hpos) (Nat.succ_ne_zero k).symm]
    exact hfile

theorem Invariant.reopen (hroll : s.rolling = some 0) :
    Invariant p maxFileSize (n + 1) files ({ s with rolling := none }.openLogFile p) := by
  obtain ⟨hn, hslot, -⟩ := h.busy _ hroll
  have hfile : s.files (p.buildFilename 0) = none := (h.holds 0 hn).none_iff.mp hslot
  have hopen : { s with rolling := none }.openLogFile p =
      { s with
        files := Function.update s.files (p.buildFilename 0) (some bomStr)
        fileSize := bomStr.length
        rolling := none
        slots := Function.update s.slots 0 (some []) } := by
    unfold State.openLogFile
    dsimp only
    rw [hfile, hslot]
    rfl
  rw [hopen]
  refine ⟨⟨fun i hi => ?_, ?_, others_update hn h.others _, fun i content hone hi hcontent => ?_⟩,
    fun hidle => ⟨[], ?_, ?_, rfl⟩, fun k hk => ?_⟩
  · dsimp only
    by_cases hzero : i = 0
    · rw [hzero, Function.update_self, Function.update_self]
      exact .inl rfl
    · rw [update_buildFilename hzero, Function.update_of_ne hzero]
      exact h.holds i hi
  · dsimp only
    rw [concat_update_nil hslot]
    exact h.suffix
  · dsimp only at hcontent
    rw [update_buildFilename (Nat.ne_of_gt hone)] at hcontent
    exact h.size i content hone hi hcontent
  · dsimp only
    rw [Function.update_self]
  · dsimp only
    rw [Function.update_self]
    rfl
  · cases hk

/-- A record comes behind those of the file that is open. -/
theorem Invariant.write (hroll : s.rolling = none) (r : Record) :
    Invariant p maxFileSize (n + 1) files
      { s with
        files := Function.update s.files (p.buildFilename 0)
          (some ((s.files (p.buildFilename 0)).getD [] ++ r.bytes))
        fileSize := s.fileSize + r.bytes.length
        slots := push r s.slots
        written := s.written ++ [r] } := by
  obtain ⟨rs, hslot, hfile, hlength⟩ := h.idle hroll
  have hpush : push r s.slots 0 = some (rs ++ [r]) := by
    rw [push, Function.update_self, hslot]
    rfl
  have hbytes : (rs ++ [r]).flatMap Record.bytes = rs.flatMap Record.bytes ++ r.bytes := by
    rw [List.flatMap_append, List.flatMap_singleton]
  rw [hfile, Option.getD_some, List.append_assoc, ← hbytes]
  refine ⟨⟨fun i hi => ?_, ?_, others_update (Nat.succ_pos n) h.others _,
    fun i content hone hi hcontent => ?_⟩, fun hidle => ⟨rs ++ [r], hpush, ?_, ?_⟩,
    fun k hk => ?_⟩
  · dsimp only
    by_cases hzero : i = 0
    · rw [hzero, Function.update_self, hpush]
      exact .inl rfl
    · rw [update_buildFilename hzero, push, Function.update_of_ne hzero]
      exact h.holds i hi
  · dsimp only
    rw [concat_push]
    obtain ⟨dropped, hdropped⟩ := h.suffix
    exact ⟨dropped, by rw [← hdropped, List.append_assoc]⟩
  · dsimp only at hcontent
    rw [update_buildFilename (Nat.ne_of_gt hone)] at hcontent
    exact h.size i content hone hi hcontent
  · dsimp only
    rw [Function.update_self]
  · dsimp only
    rw [hlength, hbytes, ← List.append_assoc]
    exact List.length_append.symm
  · dsimp only at hk
    rw [hroll] at hk
    cases hk

end Steps

/-! ### Runs -/

/-- The parts of a record are written one behind the other. -/
theorem writeFile_record (p : LogPath) (s : State) (r : Record) :
    (((s.writeFile p r.time).writeFile p r.tid).writeFile p r.file).writeFile p r.message =
      { s with
        files := Function.update s.files (p.buildFilename 0)
          (some ((s.files (p.buildFilename 0)).getD [] ++ r.bytes))
        fileSize := s.fileSize + r.bytes.length } := by
  unfold State.writeFile Record.bytes
  simp only [Function.update_self, Option.getD_some, Function.update_idem, List.append_assoc,
    List.length_append, Nat.add_assoc]

/-- What a step does, where it is possible. -/
theorem step_cases (h : step p maxFileSize n s a = some s') :
    (a = .roll ∧ s.rolling = none ∧ 0 < n ∧ maxFileSize < s.fileSize ∧
      s' = { s with
        files := Function.update s.files (p.buildFilename (n - 1)) none
        rolling := some (n - 1)
        slots := clear (n - 1) s.slots }) ∨
    (a = .rename ∧ ∃ k, s.rolling = some (k + 1) ∧
      s' = { s with
        files := renameFile s.files (p.buildFilename k) (p.buildFilename (k + 1))
        rolling := some k
        slots := moveUp k s.slots }) ∨
    (a = .reopen ∧ s.rolling = some 0 ∧ s' = { s with rolling := none }.openLogFile p) ∨
    (∃ r, a = .write r ∧ s.rolling = none ∧
      s' = { s with
        files := Function.update s.files (p.buildFilename 0)
          (some ((s.files (p.buildFilename 0)).getD [] ++ r.bytes))
        fileSize := s.fileSize + r.bytes.length
        slots := push r s.slots
        written := s.written ++ [r] }) := by
  cases a with
  | roll =>
    simp only [step] at h
    split at h
    · next hguard =>
      exact .inl ⟨rfl, hguard.1, hguard.2.1, hguard.2.2.1, (Option.some.inj h).symm⟩
    · cases h
  | rename =>
    simp only [step] at h
    split at h
    · next k hroll => exact .inr (.inl ⟨rfl, k, hroll, (Option.some.inj h).symm⟩)
    · cases h
  | reopen =>
    simp only [step] at h
    split at h
    · next hroll => exact .inr (.inr (.inl ⟨rfl, hroll, (Option.some.inj h).symm⟩))
    · cases h
  | write r =>
    simp only [step] at h
    split at h
    · next hroll =>
      rw [writeFile_record] at h
      exact .inr (.inr (.inr ⟨r, rfl, hroll, (Option.some.inj h).symm⟩))
    · cases h

theorem Invariant.step (h : Invariant p maxFileSize (n + 1) files s)
    (hstep : Rotation.step p maxFileSize (n + 1) s a = some s') :
    Invariant p maxFileSize (n + 1) files s' := by
  rcases step_cases hstep with ⟨-, hroll, -, hsize, rfl⟩ | ⟨-, k, hroll, rfl⟩ |
    ⟨-, hroll, rfl⟩ | ⟨r, -, hroll, rfl⟩
  · exact h.roll hroll hsize
  · exact h.rename hroll
  · exact h.reopen hroll
  · exact h.write hroll r

theorem Invariant.moves (h : Invariant p maxFileSize (n + 1) files s)
    (hstep : Rotation.step p maxFileSize (n + 1) s a = some s') : Moves (n + 1) s a s' := by
  rcases step_cases hstep with ⟨rfl, -, -, -, rfl⟩ | ⟨rfl, k, hroll, rfl⟩ |
    ⟨rfl, hroll, rfl⟩ | ⟨r, rfl, -, rfl⟩
  · exact ⟨concat_clear_last n s.slots, rfl⟩
  · obtain ⟨hk, hnext, -⟩ := h.busy _ hroll
    exact ⟨concat_moveUp hnext hk, rfl⟩
  · obtain ⟨-, hslot, -⟩ := h.busy _ hroll
    refine ⟨?_, rfl⟩
    unfold State.openLogFile
    dsimp only
    rw [hslot]
    exact concat_update_nil hslot
  · exact ⟨concat_push n r s.slots, rfl⟩

/-- The constructor opens a file of the earlier run, or a new one. -/
theorem invariant_new {slots : ℕ → Option (List Record)} {maxFiles : ℕ}
    (hcap : cap maxFiles = n + 1)
    (hold : ∀ i < cap maxFiles, Holds (files (p.buildFilename i)) (slots i)) :
    Invariant p maxFileSize (n + 1) files (State.new p maxFiles files slots) := by
  rw [hcap] at hold
  have hzero := hold 0 (Nat.succ_pos n)
  have hcontent : (if ((files (p.buildFilename 0)).getD []).length = 0 then
      (files (p.buildFilename 0)).getD [] ++ bomStr else (files (p.buildFilename 0)).getD []) =
        bomStr ++ ((slots 0).getD []).flatMap Record.bytes := by
    cases hfile : files (p.buildFilename 0) with
    | none =>
      rw [hzero.none_iff.mpr hfile]
      rfl
    | some content =>
      cases hslot : slots 0 with
      | none =>
        rw [hzero.none_iff.mp hslot] at hfile
        cases hfile
      | some rs =>
        rw [hfile, hslot] at hzero
        rcases hzero with rfl | ⟨rfl, rfl⟩
        · exact if_neg (by simp [bomStr])
        · rfl
  have hnew : State.new p maxFiles files slots =
      { files := Function.update files (p.buildFilename 0)
          (some (bomStr ++ ((slots 0).getD []).flatMap Record.bytes))
        fileSize := (bomStr ++ ((slots 0).getD []).flatMap Record.bytes).length
        rolling := none
        slots := Function.update slots 0 (some ((slots 0).getD []))
        written := concat (n + 1) slots } := by
    unfold State.new State.openLogFile
    dsimp only
    rw [hcontent, hcap]
  have hconcat : concat (n + 1) (Function.update slots 0 (some ((slots 0).getD []))) =
      concat (n + 1) slots := by
    refine concat_congr fun i _ => ?_
    by_cases hi : i = 0
    · rw [hi, Function.update_self, Option.getD_some]
    · rw [Function.update_of_ne hi]
  rw [hnew]
  refine ⟨⟨fun i hi => ?_, ?_, others_update (Nat.succ_pos n) (fun _ _ => rfl) _,
    fun i content hone hi hcontent => ?_⟩, fun _ => ⟨(slots 0).getD [], ?_, ?_, rfl⟩,
    fun k hk => ?_⟩
  · dsimp only
    by_cases hi0 : i = 0
    · rw [hi0, Function.update_self, Function.update_self]
      exact .inl rfl
    · rw [update_buildFilename hi0, Function.update_of_ne hi0]
      exact hold i hi
  · dsimp only
    rw [hconcat]
  · dsimp only at hcontent
    rw [update_buildFilename (Nat.ne_of_gt hone)] at hcontent
    exact .inr ⟨i, hone, le_rfl, hcontent⟩
  · dsimp only
    rw [Function.update_self]
  · dsimp only
    rw [Function.update_self]
  · cases hk

/-- At every moment the files up to the last one hold the last of all records, those of the earlier
run included, in order and each in one file. Records are dropped by rotations only, which drop those
of the last file, and a file is renamed only where it was too large. Other files are left as they
are, so that there are no more than before with a higher number. -/
theorem rotates (p : LogPath) (maxFileSize maxFiles : ℕ) (hmax : 1 ≤ maxFiles)
    (files : List Char → Option Bytes) (slots : ℕ → Option (List Record))
    (hold : ∀ i < cap maxFiles, Holds (files (p.buildFilename i)) (slots i)) {s : State}
    (hs : (system p maxFileSize maxFiles files slots).Reachable s) :
    Kept p maxFileSize (cap maxFiles) files s ∧
    (∀ i, cap maxFiles ≤ i → s.files (p.buildFilename i) = files (p.buildFilename i)) ∧
    ∀ a s', step p maxFileSize (cap maxFiles) s a = some s' → Moves (cap maxFiles) s a s' := by
  obtain ⟨n, hn⟩ : ∃ n, cap maxFiles = n + 1 := by
    refine ⟨cap maxFiles - 1, ?_⟩
    unfold cap
    omega
  have hinv : Invariant p maxFileSize (n + 1) files s := by
    refine hs.invariant (invariant_new hn hold) fun s a s' h _ hstep => ?_
    have hstep' : step p maxFileSize (cap maxFiles) s a = some s' := hstep
    rw [hn] at hstep'
    exact h.step hstep'
  rw [hn]
  refine ⟨hinv.toKept, fun i hi => ?_, fun a s' hstep => hinv.moves hstep⟩
  exact hinv.others _ fun j hj => (buildFilename_injective p).ne (by omega)

/-- A file of 39 bytes. -/
def someRecord : Record := ⟨List.replicate 27 0x30, [0x5B, 0x31, 0x5D], [], [0x61, 0x0A]⟩

def somePath : LogPath := ⟨['l', 'o', 'g'], ['.', 't', 'x', 't']⟩

/-- A record that says the number of its file. -/
def numbered (i : ℕ) : Record := { someRecord with message := [i.toUInt8] }

/-- Files with one record each. -/
def someFiles (numbers : List ℕ) (name : List Char) : Option Bytes :=
  (numbers.find? fun i => name = somePath.buildFilename i).map fun i => bomStr ++ (numbered i).bytes

def someSlots (numbers : List ℕ) (i : ℕ) : Option (List Record) :=
  if i ∈ numbers then some [numbered i] else none

theorem holds_someFiles (i : ℕ) (hi : i < cap 2) :
    Holds (someFiles [7, 1, 0] (somePath.buildFilename i)) (someSlots [7, 1, 0] i) := by
  have hi : i < 2 := hi
  obtain rfl | rfl : i = 0 ∨ i = 1 := by omega
  · exact .inl rfl
  · exact .inl rfl

/-- In the directory are three files of an earlier run, two of which are in use. A record is written
to the newest of them, which is then rotated; behind two more records the appender stands within the
second rotation. -/
theorem rotates_secondRoll : ∃ s : State, s.rolling = some 1 ∧
    s.written = [numbered 1, numbered 0, numbered 2, numbered 3, numbered 4] ∧
    s.files (somePath.buildFilename 1) = none ∧
    s.files (somePath.buildFilename 0) =
      some (bomStr ++ (numbered 3).bytes ++ (numbered 4).bytes) ∧
    Kept somePath 50 2 (someFiles [7, 1, 0]) s ∧
    (∀ i, 2 ≤ i →
      s.files (somePath.buildFilename i) = someFiles [7, 1, 0] (somePath.buildFilename i)) ∧
    ∀ a s', step somePath 50 2 s a = some s' → Moves 2 s a s' := by
  have hs : (system somePath 50 2 (someFiles [7, 1, 0]) (someSlots [7, 1, 0])).Reachable _ :=
    .step (a := .roll) (.step (a := .write (numbered 4)) (.step (a := .write (numbered 3))
      (.step (a := .reopen) (.step (a := .rename) (.step (a := .roll)
        (.step (a := .write (numbered 2)) .init trivial rfl) trivial rfl) trivial rfl) trivial rfl)
          trivial rfl) trivial rfl) trivial rfl
  have hkept := rotates somePath 50 2 (by decide) _ _ holds_someFiles hs
  exact ⟨_, rfl, rfl, by decide, by decide, hkept⟩

/-- With one file, there is one of the number 1 still. With 1001 files, of which 1000 are used, the
record in the file of the number 999 is gone, and the one before it is not. -/
theorem not_rotates :
    (∃ s, (system somePath 10 1 (someFiles [0, 1]) (someSlots [0, 1])).Reachable s ∧
      s.files (somePath.buildFilename 0) ≠ none ∧ s.files (somePath.buildFilename 1) ≠ none) ∧
    ∃ s, (system somePath 10 1001 (someFiles [1000, 999, 0]) (someSlots [1000, 999, 0])).Reachable
        s ∧
      s.files (somePath.buildFilename 1000) = some (bomStr ++ (numbered 1000).bytes) ∧
      s.files (somePath.buildFilename 999) = none ∧
      s.files (somePath.buildFilename 0) = some (bomStr ++ (numbered 0).bytes) := by
  refine ⟨⟨_, .init, by decide, by decide⟩, _, .step (a := .roll) .init trivial rfl, ?_⟩
  decide

end Yalantinglibs.EasyLog.Rotation
