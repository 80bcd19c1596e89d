import Mathlib.Data.List.TakeWhile
import Yalantinglibs.Cinatra.Uri

/-!
# Going over the characters of a URI

`parse_from` as it goes over a text that a NUL terminates. A pointer is what stands from it on, the
NUL among it. Reading behind the NUL is an error of its own.

## Main definitions

* `Uri.scan` — `parse_from` on the characters

## Main results

* `Uri.scan_eq` — nothing is read behind the NUL, and the members are those of `parseFrom`
-/

set_option autoImplicit false

namespace Yalantinglibs.Cinatra

open Reader

/-- A text is not a URI, or something is read behind it. -/
inductive UriStop
  | refused
  | overrun
  deriving DecidableEq, Repr

abbrev UriReader := Reader UriStop UInt8

namespace Uri

/-! ### The reader -/

def peek : UriReader UInt8
  | [] => .error .overrun
  | c :: p => .ok (c, c :: p)

/-- The characters up to one that ends them. All of them have to be of a kind. -/
def takeLegal (ends legal : UInt8 → Bool) : UriReader Bytes :=
  takeUntil .overrun .refused ends fun c => !legal c

/-- Whether a colon is in front of the first slash. The pointer stays. -/
def findColon : UriReader Bool := fun p =>
  match takeLegal (· ∈ ([47, 58, 0] : Bytes)) (fun _ => true) p with
  | .ok (_, p2) => .ok (p2.head? = some 58, p)
  | .error e => .error e

def readScheme : UriReader Bytes := do
  let c ← peek
  if !isAlpha c then stop .refused
  else
    skipOne .overrun
    let scheme ← takeLegal (· = 58) isSchemeCharacter
    skipOne .overrun
    return c :: scheme

/-- Two slashes. The second one is looked for behind the first one only. -/
def skipSlashes : UriReader Bool
  | 47 :: 47 :: p => .ok (true, p)
  | [47] => .error .overrun
  | [] => .error .overrun
  | p => .ok (false, p)

/-- `port_begin` goes back from the last character of the authority. -/
def portBegin (text : Bytes) : ℕ → Option ℕ
  | 0 => do
    let _ ← text[0]?
    return 0
  | p + 1 => do
    if isDecimal (← text[p + 1]?) then portBegin text p else return p + 1

/-- `u_end` goes on from the first one. There are `room` characters to the end of the host. -/
def userEnd (text : Bytes) : ℕ → ℕ → Option ℕ
  | 0, u => do
    let _ ← text[u]?
    return u
  | room + 1, u => do
    if isUserInfoCharacter (← text[u]?) then userEnd text room (u + 1) else return u

/-- The characters from one pointer to the other. -/
def slice (text : Bytes) (first last : ℕ) : Bytes := (text.take last).drop first

/-- The user info and the host that end at an index. -/
def splitHost (text : Bytes) (hostEnd : ℕ) : Option (Bytes × Bytes) := do
  let u ← userEnd text hostEnd 0
  if (← text[u]?) = 64 then return (slice text 0 u, slice text (u + 1) hostEnd)
  else return ([], slice text 0 hostEnd)

/-- The user info, the host and the port of the authority that ends at an index. -/
def splitAuthority (text : Bytes) : ℕ → Option (Bytes × Bytes × Bytes)
  | 0 => some ([], [], [])
  | last + 1 => do
    let colon ← portBegin text last
    if (← text[colon]?) = 58 then
      let (uinfo, host) ← splitHost text colon
      return (uinfo, host, slice text (colon + 1) (last + 1))
    else
      let (uinfo, host) ← splitHost text (last + 1)
      return (uinfo, host, [])

/-- The authority, which is taken apart once it is read. -/
def authorityAt (u : Uri) : UriReader Uri := fun p =>
  match takeLegal (· ∈ ([47, 63, 35, 0] : Bytes)) isAuthorityCharacter p with
  | .error e => .error e
  | .ok (authority, rest) =>
    match splitAuthority p authority.length with
    | some (uinfo, host, port) => .ok ({ u with host := host, port := port, uinfo := uinfo }, rest)
    | none => .error .overrun

def readAuthority (u : Uri) : UriReader Uri := do
  if ← skipSlashes then authorityAt u else return u

def readPath (u : Uri) : UriReader Uri := do
  let c ← peek
  if c = 47 || isPathCharacter c then
    return { u with path := ← takeLegal (· ∈ ([63, 35, 0] : Bytes)) isPathCharacter }
  else return u

def readQuery (u : Uri) : UriReader Uri := do
  if (← peek) = 63 then
    skipOne .overrun
    return { u with query := ← takeLegal (· ∈ ([35, 0] : Bytes)) isQueryCharacter }
  else return u

def readFragment (u : Uri) : UriReader Uri := do
  if (← peek) = 35 then
    skipOne .overrun
    return { u with fragment := ← takeLegal (· ∈ ([0] : Bytes)) isQueryCharacter }
  else return u

/-- `parse_from`. -/
def scan : UriReader Uri := do
  if ← findColon then
    let schema ← readScheme
    let u ← readAuthority
      { schema := schema, isSsl := schema = ascii "https" || schema = ascii "wss" }
    let u ← readPath u
    let u ← readQuery u
    readFragment u
  else stop .refused

/-! ### Parts of a text -/

variable {s x d a h t : Bytes} {c : UInt8} {u : Uri}

/-- What is returned, without the place where the reader stops. -/
def outcome (read : Except UriStop (Uri × Bytes)) : Except UriStop Uri := read.map Prod.fst

/-- What `parseFrom` says of a text. -/
def verdict : Bool × Uri → Except UriStop Uri
  | (true, u) => .ok u
  | (false, _) => .error .refused

theorem cutAt_append (stops s : Bytes) : (cutAt stops s).1 ++ (cutAt stops s).2 = s :=
  List.takeWhile_append_dropWhile

theorem notMem_cutAt {stops : Bytes} (hc : c ∈ (cutAt stops s).1) : c ∉ stops := by
  rw [cutAt] at hc
  simpa using List.mem_takeWhile_imp hc

/-- What is behind the cut starts with one of the characters, or it is empty. -/
theorem head_cutAt {stops : Bytes} (h : (cutAt stops s).2 = c :: t) : c ∈ stops := by
  have hstop := List.head?_dropWhile_not (fun c => decide (c ∉ stops)) s
  rw [show s.dropWhile (fun c => decide (c ∉ stops)) = c :: t from h, List.head?_cons] at hstop
  simpa using hstop

/-- A character of the cut, or the NUL, is behind it. -/
theorem exists_cons_nul (stops s : Bytes) :
    ∃ c rest, (cutAt stops s).2 ++ [0] = c :: rest ∧ c ∈ stops ++ [0] := by
  cases hcut : (cutAt stops s).2 with
  | nil => exact ⟨0, [], rfl, by simp⟩
  | cons c rest => exact ⟨c, rest ++ [0], rfl, List.mem_append_left _ (head_cutAt hcut)⟩

theorem notMem_rest {stops : Bytes} (h : c ∉ s) : c ∉ (cutAt stops s).2 := by
  intro hmem
  apply h
  rw [← cutAt_append stops s]
  exact List.mem_append_right _ hmem

/-- The characters in front of one that ends them. -/
theorem takeLegal_append_cons {ends legal : UInt8 → Bool} (h : ∀ d ∈ x, ends d = false)
    (hc : ends c = true) (rest : Bytes) : takeLegal ends legal (x ++ c :: rest) =
      if x.all legal then .ok (x, c :: rest) else .error .refused := by
  rw [takeLegal, takeUntil_append_cons h hc]
  cases hall : x.all legal with
  | true =>
    have hany : x.any (fun c => !legal c) = false := by
      rw [List.any_eq_false]
      intro c hc
      simp [List.all_eq_true.mp hall c hc]
    rw [hany, if_neg Bool.false_ne_true, if_pos rfl]
  | false =>
    have hany : x.any (fun c => !legal c) = true := by
      obtain ⟨c, hc, hlegal⟩ := List.all_eq_false.mp hall
      exact List.any_eq_true.mpr ⟨c, hc, by simpa using hlegal⟩
    rw [hany, if_pos rfl, if_neg Bool.false_ne_true]

/-- The characters up to a cut, where the NUL ends them as well. -/
theorem takeLegal_append_nul (stops : Bytes) (legal : UInt8 → Bool) (h0 : 0 ∉ s) :
    takeLegal (· ∈ stops ++ [0]) legal (s ++ [0]) =
      if (cutAt stops s).1.all legal then .ok ((cutAt stops s).1, (cutAt stops s).2 ++ [0])
      else .error .refused := by
  obtain ⟨c, rest, hrest, hc⟩ := exists_cons_nul stops s
  have hends : ∀ d ∈ (cutAt stops s).1, decide (d ∈ stops ++ [0]) = false := by
    intro d hd
    have hs : d ∈ s := by
      rw [← cutAt_append stops s]
      exact List.mem_append_left _ hd
    have hd0 : d ≠ 0 := fun heq => h0 (heq ▸ hs)
    simp [notMem_cutAt hd, hd0]
  have htake : takeLegal (· ∈ stops ++ [0]) legal ((cutAt stops s).1 ++ c :: rest) = _ :=
    takeLegal_append_cons hends (decide_eq_true hc) rest
  rwa [← hrest, ← List.append_assoc, cutAt_append] at htake

/-! ### The authority -/

theorem splitPort_append (x : Bytes) (hd : d.all isDecimal = true) :
    splitPort (x ++ 58 :: d) = (x, d) := by
  have hdigits : ((x ++ 58 :: d).reverse.takeWhile isDecimal).reverse = d := by
    rw [List.reverse_append, List.reverse_cons, List.append_assoc,
      List.takeWhile_append_of_pos (by simpa using hd)]
    simp [isDecimal]
  have hfront : (x ++ 58 :: d).take ((x ++ 58 :: d).length - d.length) = x ++ [58] := by
    rw [show x ++ 58 :: d = (x ++ [58]) ++ d by simp, List.length_append, Nat.add_sub_cancel,
      List.take_left]
  rw [splitPort]
  simp only [hdigits, hfront, List.getLast?_concat, if_true, List.dropLast_concat]

/-- The digits at the end, and what is in front of them. -/
theorem exists_digits (a : Bytes) : ∃ front digits, a = front ++ digits ∧
    digits.all isDecimal = true ∧ (∀ c ∈ front.getLast?, isDecimal c = false) ∧
    splitPort a = if front.getLast? = some 58 then (front.dropLast, digits) else (a, []) := by
  have hsplit : (a.reverse.dropWhile isDecimal).reverse ++
      (a.reverse.takeWhile isDecimal).reverse = a := by
    rw [← List.reverse_append, List.takeWhile_append_dropWhile, List.reverse_reverse]
  have hfront : ∀ x y : Bytes, x ++ y = a → a.take (a.length - y.length) = x := by
    rintro x y rfl
    rw [List.length_append, Nat.add_sub_cancel, List.take_left]
  refine ⟨_, _, hsplit.symm, ?_, ?_, ?_⟩
  · rw [List.all_reverse, List.all_eq_true]
    intro c hc
    exact List.mem_takeWhile_imp hc
  · intro c hc
    rw [List.getLast?_reverse] at hc
    have hstop := List.head?_dropWhile_not isDecimal a.reverse
    rw [Option.mem_def.mp hc] at hstop
    exact hstop
  · rw [splitPort, hfront _ _ hsplit]

/-- Without a colon in front of the digits at the end, there is no port. -/
theorem splitPort_of_forall (h : ∀ x d, a = x ++ 58 :: d → ¬ d.all isDecimal = true) :
    splitPort a = (a, []) := by
  obtain ⟨front, digits, ha, hdigits, -, hsplit⟩ := exists_digits a
  rw [hsplit, if_neg]
  intro hlast
  obtain ⟨x, rfl⟩ := List.getLast?_eq_some_iff.mp hlast
  exact h x digits (by rw [ha]; simp) hdigits

theorem portBegin_spec {text : Bytes} {p : ℕ} (hp : p < text.length) :
    ∃ colon c, portBegin text p = some colon ∧ colon ≤ p ∧ text[colon]? = some c ∧
      (∀ i, colon < i → i ≤ p → ∀ b ∈ text[i]?, isDecimal b = true) ∧
      (colon = 0 ∨ isDecimal c = false) := by
  induction p with
  | zero =>
    have hread : text[0]? = some text[0] := List.getElem?_eq_getElem hp
    refine ⟨0, text[0], ?_, le_rfl, hread, ?_, .inl rfl⟩
    · rw [portBegin, hread]
      rfl
    · intro i hlt hle
      omega
  | succ p ih =>
    have hread : text[p + 1]? = some text[p + 1] := List.getElem?_eq_getElem hp
    rw [portBegin, hread]
    cases hdigit : isDecimal text[p + 1] with
    | true =>
      obtain ⟨colon, c, hbegin, hle, hc, hdigits, hstop⟩ := ih (by omega)
      refine ⟨colon, c, ?_, by omega, hc, ?_, hstop⟩
      · simpa [hdigit] using hbegin
      · intro i hlt hi b hb
        obtain rfl | hi := Nat.eq_or_lt_of_le hi
        · rw [hread, Option.mem_some_iff] at hb
          rw [← hb, hdigit]
        · exact hdigits i hlt (by omega) b hb
    | false =>
      refine ⟨p + 1, text[p + 1], ?_, le_rfl, hread, ?_, .inr hdigit⟩
      · simp [hdigit]
      · intro i hlt hle
        omega

/-- The user info goes on to the end of the host at most. -/
theorem userEnd_eq {text : Bytes} {u : ℕ} (htext : text.drop u = h ++ c :: t) :
    userEnd text h.length u = some (u + (h.takeWhile isUserInfoCharacter).length) := by
  induction h generalizing u with
  | nil =>
    have hread : text[u]? = some c := by
      rw [← List.head?_drop, htext]
      rfl
    rw [List.length_nil, userEnd, hread]
    rfl
  | cons b h ih =>
    have hread : text[u]? = some b := by
      rw [← List.head?_drop, htext]
      rfl
    rw [List.length_cons, userEnd, hread]
    cases hb : isUserInfoCharacter b with
    | true =>
      have hdrop : text.drop (u + 1) = h ++ c :: t := by
        rw [← List.drop_drop, htext]
        rfl
      rw [List.takeWhile_cons_of_pos hb, List.length_cons]
      simp only [Option.pure_def, Option.bind_eq_bind, Option.bind_some, hb, if_true, ih hdrop]
      congr 1
      omega
    | false =>
      rw [List.takeWhile_cons_of_neg (by simp [hb])]
      simp [hb]

theorem slice_append (x y t : Bytes) : slice (x ++ y ++ t) x.length (x.length + y.length) = y := by
  rw [slice, ← List.length_append, List.take_left, List.drop_left]

theorem takeWhile_userInfo (hx : x.all isUserInfoCharacter = true) (t : Bytes) :
    (x ++ 64 :: t).takeWhile isUserInfoCharacter = x := by
  rw [List.takeWhile_append_of_pos (List.all_eq_true.mp hx), List.takeWhile_cons_of_neg (by decide),
    List.append_nil]

theorem splitUinfo_append (hx : x.all isUserInfoCharacter = true) (t : Bytes) :
    splitUinfo (x ++ 64 :: t) = (x, t) := by
  have hdrop : (x ++ 64 :: t).dropWhile isUserInfoCharacter = 64 :: t := by
    rw [List.dropWhile_append_of_pos (List.all_eq_true.mp hx),
      List.dropWhile_cons_of_neg (by decide)]
  rw [splitUinfo]
  simp only [takeWhile_userInfo hx, hdrop]

/-- Without an `@` behind characters of a user info, there is none. -/
theorem splitUinfo_of_forall
    (hno : ∀ x t, h = x ++ 64 :: t → ¬ x.all isUserInfoCharacter = true) :
    splitUinfo h = ([], h) := by
  have hsplit : h.takeWhile isUserInfoCharacter ++ h.dropWhile isUserInfoCharacter = h :=
    List.takeWhile_append_dropWhile
  rw [splitUinfo]
  split
  · rename_i t hdrop
    rw [hdrop] at hsplit
    exact absurd (List.all_eq_true.mpr fun c hc => List.mem_takeWhile_imp hc)
      (hno _ t hsplit.symm)
  · rfl

theorem splitHost_eq (hc : c ≠ 64) : splitHost (h ++ c :: t) h.length = some (splitUinfo h) := by
  have hend := userEnd_eq (show (h ++ c :: t).drop 0 = h ++ c :: t from rfl)
  rw [splitHost, hend, Nat.zero_add]
  by_cases hat : ∃ x y, h = x ++ 64 :: y ∧ x.all isUserInfoCharacter = true
  · obtain ⟨x, y, rfl, hx⟩ := hat
    rw [takeWhile_userInfo hx, splitUinfo_append hx]
    have huser : slice (x ++ 64 :: y ++ c :: t) 0 x.length = x := by
      simpa using slice_append [] x (64 :: y ++ c :: t)
    have hhost : slice (x ++ 64 :: y ++ c :: t) (x.length + 1) (x ++ 64 :: y).length = y := by
      have hslice := slice_append (x ++ [64]) y (c :: t)
      simpa [Nat.add_right_comm, Nat.add_assoc, Nat.add_comm 1] using hslice
    simpa using And.intro huser hhost
  · have hno : ∀ x y, h = x ++ 64 :: y → ¬ x.all isUserInfoCharacter = true := by
      intro x y hxy hx
      exact hat ⟨x, y, hxy, hx⟩
    have hwhole : slice (h ++ c :: t) 0 h.length = h := by
      simpa using slice_append [] h (c :: t)
    rw [splitUinfo_of_forall hno]
    have hsplit : h.takeWhile isUserInfoCharacter ++ h.dropWhile isUserInfoCharacter = h :=
      List.takeWhile_append_dropWhile
    have hall : (h.takeWhile isUserInfoCharacter).all isUserInfoCharacter = true :=
      List.all_eq_true.mpr fun c hc => List.mem_takeWhile_imp hc
    generalize h.takeWhile isUserInfoCharacter = x at hsplit hall ⊢
    have hread : (h ++ c :: t)[x.length]? =
        (h.dropWhile isUserInfoCharacter ++ c :: t).head? := by
      rw [← List.head?_drop]
      conv_lhs => rw [← hsplit, List.append_assoc, List.drop_left]
    cases hrest : h.dropWhile isUserInfoCharacter with
    | nil =>
      rw [hrest] at hread
      simp [hread, hc, hwhole]
    | cons b y =>
      rw [hrest] at hread hsplit
      have hb : b ≠ 64 := by
        rintro rfl
        exact hno x y hsplit.symm hall
      simp [hread, hb, hwhole]

/-- Whatever stands behind an authority, it is split the same. -/
theorem splitAuthority_eq (hc : c ≠ 64) :
    splitAuthority (a ++ c :: t) a.length =
      some ((splitUinfo (splitPort a).1).1, (splitUinfo (splitPort a).1).2, (splitPort a).2) := by
  cases hlen : a.length with
  | zero =>
    rw [List.length_eq_zero_iff.mp hlen]
    rfl
  | succ last =>
    have hlast : last < (a ++ c :: t).length := by
      rw [List.length_append]
      omega
    obtain ⟨colon, b, hbegin, hle, hb, hdigits, hstop⟩ := portBegin_spec hlast
    have hleft : ∀ i ≤ last, (a ++ c :: t)[i]? = a[i]? := by
      intro i hi
      exact List.getElem?_append_left (by omega)
    rw [splitAuthority, hbegin]
    by_cases heq : b = 58
    · subst heq
      have hcut : a.take colon ++ 58 :: a.drop (colon + 1) = a := by
        obtain ⟨hlt, hget⟩ := List.getElem?_eq_some_iff.mp (hleft colon hle ▸ hb)
        rw [← hget, ← List.drop_eq_getElem_cons, List.take_append_drop]
      have hport : (a.drop (colon + 1)).all isDecimal = true := by
        rw [List.all_eq_true]
        intro digit hmem
        obtain ⟨i, hi, rfl⟩ := List.getElem_of_mem hmem
        rw [List.length_drop] at hi
        refine hdigits (colon + 1 + i) (by omega) (by omega) _ ?_
        rw [hleft _ (by omega), List.getElem_drop]
        exact List.getElem?_eq_getElem _
      have hx : (a.take colon).length = colon := by
        rw [List.length_take]
        omega
      generalize a.take colon = x at hcut hx
      generalize a.drop (colon + 1) = d at hcut hport
      subst hcut hx
      have hhost : splitHost (x ++ 58 :: d ++ c :: t) x.length = some (splitUinfo x) := by
        rw [List.append_assoc]
        exact splitHost_eq (by decide)
      have hdigits : slice (x ++ 58 :: d ++ c :: t) (x.length + 1) (last + 1) = d := by
        have hslice := slice_append (x ++ [58]) d (c :: t)
        rw [← hlen]
        simpa [Nat.add_right_comm, Nat.add_assoc, Nat.add_comm 1] using hslice
      rw [splitPort_append x hport]
      simp only [hb, hhost, hdigits, Option.bind_eq_bind, Option.bind_some, if_true]
      rfl
    · have hport : splitPort a = (a, []) := by
        apply splitPort_of_forall
        rintro x d rfl hd
        have hcolon : (x ++ 58 :: d)[x.length]? = some 58 := by simp
        have hx : x.length ≤ last := by
          rw [List.length_append, List.length_cons] at hlen
          omega
        rcases Nat.lt_trichotomy colon x.length with hlt | heqx | hgt
        · -- the colon would be a digit
          have hdigit := hdigits x.length hlt hx 58 (by rw [hleft _ hx, hcolon]; rfl)
          cases hdigit
        · rw [hleft _ hle, heqx, hcolon, Option.some.injEq] at hb
          exact heq hb.symm
        · -- the scan would have stopped at a digit
          have hmem : b ∈ d := by
            rw [hleft _ hle, List.getElem?_append_right hgt.le,
              show colon - x.length = colon - x.length - 1 + 1 by omega,
              List.getElem?_cons_succ] at hb
            exact List.mem_of_getElem? hb
          rw [List.all_eq_true.mp hd b hmem] at hstop
          exact hstop.elim (by omega) Bool.noConfusion
      have hhost := splitHost_eq (h := a) (t := t) hc
      rw [hlen] at hhost
      simp [hb, heq, hhost, hport]

/-! ### The components -/

section Components

variable (u)

theorem parseFragment_cons (s : Bytes) : parseFragment u (35 :: s) =
    if s.all isQueryCharacter then (true, { u with fragment := s }) else (false, u) := rfl

theorem parseFragment_of_ne (hc : s.head? ≠ some 35) : parseFragment u s = (true, u) := by
  unfold parseFragment
  split
  · exact absurd rfl hc
  · rfl

theorem parseQueryPart_cons (s : Bytes) : parseQueryPart u (63 :: s) =
    if (cutAt [35] s).1.all isQueryCharacter then
      parseFragment { u with query := (cutAt [35] s).1 } (cutAt [35] s).2
    else (false, u) := rfl

theorem parseQueryPart_of_ne (hc : s.head? ≠ some 63) :
    parseQueryPart u s = parseFragment u s := by
  unfold parseQueryPart
  split
  · exact absurd rfl hc
  · rfl

theorem parsePath_cons (c : UInt8) (s : Bytes) : parsePath u (c :: s) =
    if isPathCharacter c then
      if (cutAt [63, 35] (c :: s)).1.all isPathCharacter then
        parseQueryPart { u with path := (cutAt [63, 35] (c :: s)).1 } (cutAt [63, 35] (c :: s)).2
      else (false, u)
    else parseQueryPart u (c :: s) := rfl

theorem parseRest_slashes (s : Bytes) : parseRest u (47 :: 47 :: s) =
    if (cutAt [47, 63, 35] s).1.all isAuthorityCharacter then
      parsePath
        { u with
          host := (splitUinfo (splitPort (cutAt [47, 63, 35] s).1).1).2
          port := (splitPort (cutAt [47, 63, 35] s).1).2
          uinfo := (splitUinfo (splitPort (cutAt [47, 63, 35] s).1).1).1 }
        (cutAt [47, 63, 35] s).2
    else (false, u) := rfl

theorem parseRest_of_not (hc : ¬ [47, 47] <+: s) : parseRest u s = parsePath u s := by
  unfold parseRest
  split
  · exact absurd ⟨_, rfl⟩ hc
  · rfl

/-- The last component is read to the NUL. -/
theorem readFragment_eq (h0 : 0 ∉ s) :
    outcome (readFragment u (s ++ [0])) = verdict (parseFragment u s) := by
  cases s with
  | nil => rfl
  | cons c s =>
    rw [readFragment, bind_of_ok (show peek (c :: s ++ [0]) = .ok (c, c :: s ++ [0]) from rfl)]
    by_cases hc : c = 35
    · subst hc
      have htake : takeLegal (· ∈ ([0] : Bytes)) isQueryCharacter (s ++ [0]) = _ :=
        takeLegal_append_nul [] isQueryCharacter (List.not_mem_of_not_mem_cons h0)
      have hcut : cutAt [] s = (s, []) := by simp [cutAt]
      rw [hcut] at htake
      rw [if_pos rfl, bind_of_ok (show skipOne _ (35 :: s ++ [0]) = .ok ((), s ++ [0]) from rfl),
        parseFragment_cons]
      cases hall : s.all isQueryCharacter with
      | true =>
        rw [hall, if_pos rfl] at htake
        rw [bind_of_ok htake]
        rfl
      | false =>
        rw [hall, if_neg Bool.false_ne_true] at htake
        rw [bind_of_error htake]
        rfl
    · rw [if_neg hc, parseFragment_of_ne u (by simpa using hc)]
      rfl

theorem readQuery_eq (h0 : 0 ∉ s) :
    outcome ((readQuery u >>= readFragment) (s ++ [0])) = verdict (parseQueryPart u s) := by
  cases s with
  | nil => rfl
  | cons c s =>
    have hpeek : peek (c :: s ++ [0]) = .ok (c, c :: s ++ [0]) := rfl
    by_cases hc : c = 63
    · subst hc
      have hs : 0 ∉ s := List.not_mem_of_not_mem_cons h0
      have htake : takeLegal (· ∈ ([35, 0] : Bytes)) isQueryCharacter (s ++ [0]) = _ :=
        takeLegal_append_nul [35] isQueryCharacter hs
      rw [readQuery, bind_assoc, bind_of_ok hpeek, if_pos rfl, bind_assoc,
        bind_of_ok (show skipOne _ (63 :: s ++ [0]) = .ok ((), s ++ [0]) from rfl),
        parseQueryPart_cons]
      cases hall : (cutAt [35] s).1.all isQueryCharacter with
      | true =>
        rw [hall, if_pos rfl] at htake
        rw [bind_assoc, bind_of_ok htake, if_pos rfl]
        exact readFragment_eq _ (notMem_rest hs)
      | false =>
        rw [hall, if_neg Bool.false_ne_true] at htake
        rw [bind_assoc, bind_of_error htake, if_neg Bool.false_ne_true]
        rfl
    · rw [readQuery, bind_assoc, bind_of_ok hpeek, if_neg hc,
        parseQueryPart_of_ne u (by simpa using hc)]
      exact readFragment_eq u h0

theorem readPath_eq (h0 : 0 ∉ s) :
    outcome ((readPath u >>= fun u => readQuery u >>= readFragment) (s ++ [0])) =
      verdict (parsePath u s) := by
  cases s with
  | nil => rfl
  | cons c s =>
    have hpeek : peek (c :: s ++ [0]) = .ok (c, c :: s ++ [0]) := rfl
    have hslash : (decide (c = 47) || isPathCharacter c) = isPathCharacter c := by
      by_cases hc : c = 47
      · subst hc
        rfl
      · rw [decide_eq_false hc, Bool.false_or]
    rw [readPath, bind_assoc, bind_of_ok hpeek, hslash, parsePath_cons]
    cases hc : isPathCharacter c with
    | true =>
      have htake : takeLegal (· ∈ ([63, 35, 0] : Bytes)) isPathCharacter (c :: s ++ [0]) = _ :=
        takeLegal_append_nul [63, 35] isPathCharacter h0
      rw [if_pos rfl, if_pos rfl]
      cases hall : (cutAt [63, 35] (c :: s)).1.all isPathCharacter with
      | true =>
        rw [hall, if_pos rfl] at htake
        rw [bind_assoc, bind_of_ok htake, if_pos rfl]
        exact readQuery_eq _ (notMem_rest h0)
      | false =>
        rw [hall, if_neg Bool.false_ne_true] at htake
        rw [bind_assoc, bind_of_error htake, if_neg Bool.false_ne_true]
        rfl
    | false =>
      rw [if_neg Bool.false_ne_true, if_neg Bool.false_ne_true]
      exact readQuery_eq u h0

/-- No `@` ends an authority. -/
theorem splitAuthority_nul (s : Bytes) :
    splitAuthority (s ++ [0]) (cutAt [47, 63, 35] s).1.length =
      some ((splitUinfo (splitPort (cutAt [47, 63, 35] s).1).1).1,
        (splitUinfo (splitPort (cutAt [47, 63, 35] s).1).1).2,
        (splitPort (cutAt [47, 63, 35] s).1).2) := by
  obtain ⟨c, rest, hrest, hc⟩ := exists_cons_nul [47, 63, 35] s
  have hne : c ≠ 64 := by
    rintro rfl
    revert hc
    decide
  rw [← splitAuthority_eq (t := rest) hne, ← hrest, ← List.append_assoc, cutAt_append]

/-- Two slashes are looked for in front of the NUL. -/
theorem skipSlashes_of_not (hc : ¬ [47, 47] <+: s) :
    skipSlashes (s ++ [0]) = .ok (false, s ++ [0]) := by
  match s with
  | [] => rfl
  | [c] =>
    by_cases hslash : c = 47
    · subst hslash
      rfl
    · unfold skipSlashes
      split <;> simp_all
  | c :: d :: s =>
    unfold skipSlashes
    split
    · rename_i heq
      cases heq
      exact absurd ⟨_, rfl⟩ hc
    · simp_all
    · simp_all
    · rfl

theorem readAuthority_eq (h0 : 0 ∉ s) :
    outcome ((readAuthority u >>= fun u => readPath u >>= fun u => readQuery u >>= readFragment)
      (s ++ [0])) = verdict (parseRest u s) := by
  by_cases hslashes : [47, 47] <+: s
  · obtain ⟨s, rfl⟩ := hslashes
    rw [show [47, 47] ++ s ++ [0] = 47 :: 47 :: (s ++ [0]) from rfl,
      show [47, 47] ++ s = 47 :: 47 :: s from rfl]
    have hs : 0 ∉ s := fun hmem => h0 (List.mem_append_right _ hmem)
    have hskip : skipSlashes (47 :: 47 :: (s ++ [0])) = .ok (true, s ++ [0]) := rfl
    have htake : takeLegal (· ∈ ([47, 63, 35, 0] : Bytes)) isAuthorityCharacter (s ++ [0]) = _ :=
      takeLegal_append_nul [47, 63, 35] isAuthorityCharacter hs
    have hsplit : splitAuthority (s ++ [0]) (cutAt [47, 63, 35] s).1.length = _ :=
      splitAuthority_nul s
    rw [readAuthority, bind_assoc, bind_of_ok hskip, if_pos rfl, parseRest_slashes]
    cases hall : (cutAt [47, 63, 35] s).1.all isAuthorityCharacter with
    | true =>
      rw [hall, if_pos rfl] at htake
      have hread : authorityAt u (s ++ [0]) = .ok
          ({ u with
              host := (splitUinfo (splitPort (cutAt [47, 63, 35] s).1).1).2
              port := (splitPort (cutAt [47, 63, 35] s).1).2
              uinfo := (splitUinfo (splitPort (cutAt [47, 63, 35] s).1).1).1 },
            (cutAt [47, 63, 35] s).2 ++ [0]) := by
        simp only [authorityAt, htake, hsplit]
      rw [bind_of_ok hread, if_pos rfl]
      exact readPath_eq _ (notMem_rest hs)
    | false =>
      rw [hall, if_neg Bool.false_ne_true] at htake
      have hread : authorityAt u (s ++ [0]) = .error .refused := by
        simp only [authorityAt, htake]
      rw [bind_of_error hread, if_neg Bool.false_ne_true]
      rfl
  · rw [readAuthority, bind_assoc, bind_of_ok (skipSlashes_of_not hslashes),
      if_neg Bool.false_ne_true, parseRest_of_not u hslashes]
    exact readPath_eq u h0

end Components

/-! ### The whole text -/

/-- A colon is found where the scheme is cut off at one. -/
theorem findColon_eq (h0 : 0 ∉ s) : findColon (s ++ [0]) =
    .ok (decide ((cutAt [47, 58] s).2.head? = some 58), s ++ [0]) := by
  have htake : takeLegal (· ∈ ([47, 58, 0] : Bytes)) (fun _ => true) (s ++ [0]) = _ :=
    takeLegal_append_nul [47, 58] (fun _ => true) h0
  rw [if_pos (List.all_eq_true.mpr fun _ _ => rfl)] at htake
  simp only [findColon, htake]
  cases (cutAt [47, 58] s).2 <;> rfl

/-- The first character of a scheme is a letter. -/
def isScheme (schema : Bytes) : Bool := schema.head?.any isAlpha && schema.all isSchemeCharacter

theorem readScheme_eq (hx : ∀ c ∈ x, c ≠ 58) (rest : Bytes) :
    readScheme (x ++ 58 :: rest) = if isScheme x then .ok (x, rest) else .error .refused := by
  cases x with
  | nil => rfl
  | cons c x =>
    have hpeek : peek (c :: x ++ 58 :: rest) = .ok (c, c :: x ++ 58 :: rest) := rfl
    rw [readScheme, bind_of_ok hpeek, isScheme, List.head?_cons, Option.any_some, List.all_cons]
    cases hc : isAlpha c with
    | false => rfl
    | true =>
      have hscheme : isSchemeCharacter c = true := by
        rw [isSchemeCharacter, hc, Bool.true_or, Bool.true_or]
      have hskip : skipOne UriStop.overrun (c :: x ++ 58 :: rest) = .ok ((), x ++ 58 :: rest) := rfl
      have htake : takeLegal (· = 58) isSchemeCharacter (x ++ 58 :: rest) = _ :=
        takeLegal_append_cons (fun d hd => decide_eq_false (hx d (List.mem_cons_of_mem c hd)))
          (decide_eq_true rfl) rest
      rw [if_neg (by simp), bind_of_ok hskip, hscheme, Bool.true_and, Bool.true_and]
      cases hall : x.all isSchemeCharacter with
      | true =>
        rw [hall, if_pos rfl] at htake
        rw [bind_of_ok htake]
        rfl
      | false =>
        rw [hall, if_neg Bool.false_ne_true] at htake
        rw [bind_of_error htake]
        rfl

/-- The members where the scheme is read. -/
def ofScheme (schema : Bytes) : Uri :=
  { schema := schema, isSsl := schema = ascii "https" || schema = ascii "wss" }

theorem takeWhile_ne_nul (h0 : 0 ∉ s) : s.takeWhile (· ≠ 0) = s := by
  rw [List.takeWhile_eq_self_iff]
  intro c hc
  exact decide_eq_true fun heq => h0 (heq ▸ hc)

theorem parseFrom_of_colon (h0 : 0 ∉ s) {schema rest : Bytes}
    (hcut : cutAt [47, 58] s = (schema, 58 :: rest)) :
    parseFrom s = if isScheme schema then parseRest (ofScheme schema) rest else (false, {}) := by
  rw [parseFrom, takeWhile_ne_nul h0]
  simp only [hcut]
  rfl

theorem parseFrom_of_ne (h0 : 0 ∉ s) (hcut : (cutAt [47, 58] s).2.head? ≠ some 58) :
    parseFrom s = (false, {}) := by
  rw [parseFrom, takeWhile_ne_nul h0]
  split
  rename_i schema rest heq
  rw [heq] at hcut
  split
  · exact absurd rfl hcut
  · rfl

/-- Nothing is read behind the NUL, and the members are those of `parseFrom`. -/
theorem scan_eq (h0 : 0 ∉ s) : outcome (scan (s ++ [0])) = verdict (parseFrom s) := by
  rw [scan, bind_of_ok (findColon_eq h0)]
  by_cases hcolon : (cutAt [47, 58] s).2.head? = some 58
  · obtain ⟨rest, hrest⟩ := List.head?_eq_some_iff.mp hcolon
    have hs : s = (cutAt [47, 58] s).1 ++ 58 :: rest := by rw [← hrest, cutAt_append]
    have hcut : cutAt [47, 58] s = ((cutAt [47, 58] s).1, 58 :: rest) := by rw [← hrest]
    have hx : ∀ c ∈ (cutAt [47, 58] s).1, c ≠ 58 := by
      rintro c hc rfl
      exact notMem_cutAt hc (by decide)
    have h0rest : 0 ∉ rest := by
      have hmem : 0 ∉ (cutAt [47, 58] s).2 := notMem_rest h0
      rw [hrest] at hmem
      exact List.not_mem_of_not_mem_cons hmem
    have htext : (cutAt [47, 58] s).1 ++ 58 :: (rest ++ [0]) = s ++ [0] := by
      conv_rhs => rw [hs, List.append_assoc, List.cons_append]
    have hread := readScheme_eq hx (rest ++ [0])
    rw [htext] at hread
    rw [decide_eq_true hcolon, if_pos rfl, parseFrom_of_colon h0 hcut]
    cases hscheme : isScheme (cutAt [47, 58] s).1 with
    | true =>
      rw [hscheme, if_pos rfl] at hread
      rw [bind_of_ok hread, if_pos rfl]
      exact readAuthority_eq _ h0rest
    | false =>
      rw [hscheme, if_neg Bool.false_ne_true] at hread
      rw [bind_of_error hread, if_neg Bool.false_ne_true]
      rfl
  · rw [decide_eq_false hcolon, if_neg Bool.false_ne_true, parseFrom_of_ne h0 hcolon]
    rfl

end Uri

end Yalantinglibs.Cinatra
