import Yalantinglibs.Cinatra.RadixRoutes

/-!
# Insertion into the radix tree

`insert` adds one route and keeps the others, as long as no wildcard of the pattern comes where the
tree ends. Going down, a round replaces one child of a node, or puts a new one between the others;
the routes of the node change as those of the child do.

## Main definitions

* `Update` — the routes change at one pattern only
* `Inserted` — what a call of the loop does to the tree below a node

## Main results

* `insertLoop_spec` — the loop does that
-/

set_option autoImplicit false

namespace Yalantinglibs.Cinatra

namespace RadixTree

open Node

variable {H : Type*}

/-! ### Routes of a node and of its children -/

/-- The routes of a tree. -/
abbrev Routes (H : Type*) := List Tok → Bytes → H → Prop

/-- The routes change at one pattern only, and there only where the code is zero. -/
def Update (code : ℤ) (toks : List Tok) (method : Bytes) (handler : H) (R R' : Routes H) : Prop :=
  ∀ t m h, R' t m h ↔ if code = 0 ∧ t = toks then m = method ∧ h = handler else R t m h

/-- Routes behind a piece of a pattern. -/
def Behind (pre : List Tok) (R : Routes H) : Routes H :=
  fun t m h => ∃ t', t = pre ++ t' ∧ R t' m h

/-- The routes through a child, from the node above it. -/
def Below (child : Node H) : Routes H := Behind (lits child.path) (HasRoute child)

/-- The ends below a child, from the node above it. -/
def LeafBelow (child : Node H) (t : List Tok) : Prop :=
  ∃ t', t = lits child.path ++ t' ∧ LeafAt child t'

section Routes

variable {path path' indices : Bytes} {slot slot' : HandlerT H} {children : List (Node H)}
  {child : Node H} {t toks : List Tok} {m : Bytes} {h : H}

theorem hasRoute_text_iff (hbelow : TextBelow indices children) :
    HasRoute (mk path slot indices children) t m h ↔
      (t = [] ∧ slot = ⟨m, some h⟩) ∨ ∃ child ∈ children, Below child t m h := by
  constructor
  · intro hroute
    cases hroute with
    | here => exact .inl ⟨rfl, rfl⟩
    | colon => exact absurd hbelow not_textBelow_colon
    | asterisk => exact absurd hbelow not_textBelow_asterisk
    | text _ hmem hchild => exact .inr ⟨_, hmem, _, rfl, hchild⟩
  · rintro (⟨rfl, rfl⟩ | ⟨child, hmem, t', rfl, hchild⟩)
    · exact .here
    · exact .text hbelow hmem hchild

theorem hasRoute_colon_iff :
    HasRoute (mk path slot [typeColon] [child]) t m h ↔
      (t = [] ∧ slot = ⟨m, some h⟩) ∨ Behind [.param child.path] (HasRoute child) t m h := by
  constructor
  · intro hroute
    cases hroute with
    | here => exact .inl ⟨rfl, rfl⟩
    | colon hchild => exact .inr ⟨_, rfl, hchild⟩
    | text hbelow => exact absurd hbelow not_textBelow_colon
  · rintro (⟨rfl, rfl⟩ | ⟨t', rfl, hchild⟩)
    · exact .here
    · exact .colon hchild

theorem leafAt_text_iff (hbelow : TextBelow indices children) :
    LeafAt (mk path slot indices children) t ↔
      (t = [] ∧ indices = []) ∨ ∃ child ∈ children, LeafBelow child t := by
  constructor
  · intro hleaf
    cases hleaf with
    | here => exact .inl ⟨rfl, rfl⟩
    | colon => exact absurd hbelow not_textBelow_colon
    | text _ hmem hchild => exact .inr ⟨_, hmem, _, rfl, hchild⟩
  · rintro (⟨rfl, rfl⟩ | ⟨child, hmem, t', rfl, hchild⟩)
    · exact .here
    · exact .text hbelow hmem hchild

theorem leafAt_colon_iff :
    LeafAt (mk path slot [typeColon] [child]) t ↔
      ∃ t', t = .param child.path :: t' ∧ LeafAt child t' := by
  constructor
  · intro hleaf
    cases hleaf with
    | colon hchild => exact ⟨_, rfl, hchild⟩
    | text hbelow => exact absurd hbelow not_textBelow_colon
  · rintro ⟨t', rfl, hchild⟩
    exact .colon hchild

/-- The text of a node and its slot do not matter to what is below it. -/
theorem HasRoute.of_slot (hne : t ≠ []) (hroute : HasRoute (mk path slot indices children) t m h) :
    HasRoute (mk path' slot' indices children) t m h := by
  cases hroute with
  | here => exact absurd rfl hne
  | colon hchild => exact .colon hchild
  | asterisk => exact .asterisk
  | text hbelow hmem hchild => exact .text hbelow hmem hchild

theorem LeafAt.of_slot (hleaf : LeafAt (mk path slot indices children) t) :
    LeafAt (mk path' slot' indices children) t := by
  cases hleaf with
  | here => exact .here
  | colon hchild => exact .colon hchild
  | text hbelow hmem hchild => exact .text hbelow hmem hchild

theorem Shape.of_slot (hshape : Shape (mk path slot indices children)) :
    Shape (mk path' slot' indices children) := by
  cases hshape with
  | colon hchild => exact .colon hchild
  | asterisk => exact .asterisk
  | text hbelow hchildren => exact .text hbelow hchildren

/-- A node that is an end has no children. -/
theorem leafAt_nil {root : Node H} (hleaf : LeafAt root []) : root.indices = [] := by
  generalize ht : ([] : List Tok) = t at hleaf
  cases hleaf with
  | here => rfl
  | colon => cases ht
  | @text _ _ _ _ child toks hbelow hmem hchild =>
    obtain ⟨c, more, hpath, -⟩ := hbelow.head hmem
    rw [hpath] at ht
    cases ht

/-- A route that ends at a node is in its slot. -/
theorem hasRoute_nil_iff :
    HasRoute (mk path slot indices children) [] m h ↔ slot = ⟨m, some h⟩ := by
  constructor
  · generalize ht : ([] : List Tok) = t
    intro hroute
    cases hroute with
    | here => rfl
    | colon => cases ht
    | asterisk => cases ht
    | @text _ _ _ _ _ child toks _ hbelow hmem hchild =>
      obtain ⟨c, more, hpath, -⟩ := hbelow.head hmem
      rw [hpath] at ht
      cases ht
  · rintro rfl
    exact .here

end Routes

/-! ### One step -/

section Update

variable {code : ℤ} {toks : List Tok} {method : Bytes} {handler : H} {R R' : Routes H}

theorem Update.refl : Update (-1) toks method handler R R := by
  intro t m h
  rw [if_neg]
  rintro ⟨hcode, -⟩
  cases hcode

/-- Where routes change at one pattern only, they do so behind a piece of a pattern. -/
theorem Update.behind (pre : List Tok) (hupdate : Update code toks method handler R R') :
    Update code (pre ++ toks) method handler (Behind pre R) (Behind pre R') := by
  intro t m h
  constructor
  · rintro ⟨t', rfl, hroute⟩
    rw [hupdate] at hroute
    by_cases hat : code = 0 ∧ t' = toks
    · rw [if_pos hat] at hroute
      rw [if_pos ⟨hat.1, by rw [hat.2]⟩]
      exact hroute
    · rw [if_neg hat] at hroute
      rw [if_neg]
      · exact ⟨t', rfl, hroute⟩
      · rintro ⟨hcode, ht⟩
        exact hat ⟨hcode, List.append_cancel_left ht⟩
  · by_cases hat : code = 0 ∧ t = pre ++ toks
    · rw [if_pos hat]
      intro hroute
      refine ⟨toks, hat.2, ?_⟩
      rw [hupdate, if_pos ⟨hat.1, rfl⟩]
      exact hroute
    · rw [if_neg hat]
      rintro ⟨t', rfl, hroute⟩
      refine ⟨t', rfl, ?_⟩
      rw [hupdate, if_neg]
      · exact hroute
      · rintro ⟨hcode, rfl⟩
        exact hat ⟨hcode, rfl⟩

/-- Routes beside those that change stay, as long as none of them is for the pattern. -/
theorem Update.beside {S : Routes H} (hS : ∀ m h, ¬ S toks m h)
    (hupdate : Update code toks method handler R R') :
    Update code toks method handler (fun t m h => S t m h ∨ R t m h)
      (fun t m h => S t m h ∨ R' t m h) := by
  intro t m h
  change S t m h ∨ R' t m h ↔ _
  rw [hupdate]
  by_cases hat : code = 0 ∧ t = toks
  · rw [if_pos hat, if_pos hat, hat.2, or_iff_right (hS m h)]
  · rw [if_neg hat, if_neg hat]

theorem Update.congr {S S' : Routes H} (hR : ∀ t m h, S t m h ↔ R t m h)
    (hR' : ∀ t m h, S' t m h ↔ R' t m h) (hupdate : Update code toks method handler R R') :
    Update code toks method handler S S' := by
  intro t m h
  rw [hR', hupdate, hR]

end Update

/-- What a call of the loop does to the tree below a node. -/
structure Inserted (root : Node H) (toks : List Tok) (method : Bytes) (handler : H)
    (root' : Node H) (code : ℤ) : Prop where
  path : root'.path = root.path
  shape : Shape root'
  routes : Update code toks method handler (HasRoute root) (HasRoute root')
  leaves : ∀ t, LeafAt root' t → LeafAt root t ∨ code = 0 ∧ t = toks
  codes : code = 0 ∨ code = -1
  fresh : root.indices = [] → code = 0
  inner : toks ≠ [] → code = 0 → root'.indices ≠ []

section Middle

variable {α : Type*} {P : α → Prop} {pre mid post : List α} {a : α}

theorem mem_middle : a ∈ pre ++ mid ++ post ↔ a ∈ pre ++ post ∨ a ∈ mid := by
  simp only [List.mem_append]
  tauto

theorem exists_mem_middle :
    (∃ a ∈ pre ++ mid ++ post, P a) ↔ (∃ a ∈ pre ++ post, P a) ∨ ∃ a ∈ mid, P a := by
  simp only [mem_middle, or_and_right, exists_or]

theorem exists_mem_singleton : (∃ b ∈ [a], P b) ↔ P a := by
  simp only [List.mem_singleton, exists_eq_left]

end Middle

section Inserted

variable {path indices : Bytes} {slot : HandlerT H} {toks : List Tok} {method : Bytes}
  {handler : H} {code : ℤ}

/-- The pattern does not fit below the node. -/
theorem Inserted.refused {root : Node H} (hshape : Shape root) (hne : root.indices ≠ []) :
    Inserted root toks method handler root (-1) where
  path := rfl
  shape := hshape
  routes := .refl
  leaves := fun _ hleaf => .inl hleaf
  codes := .inr rfl
  fresh := fun hnil => absurd hnil hne
  inner := fun _ hcode => by cases hcode

/-- The pattern ends at the node. -/
theorem Inserted.here {root : Node H} (hshape : Shape root) :
    Inserted root [] method handler (root.addHandler handler method) 0 := by
  obtain ⟨path, slot, indices, children⟩ := root
  refine ⟨rfl, hshape.of_slot, ?_, fun t hleaf => .inl hleaf.of_slot, .inl rfl, fun _ => rfl,
    fun hne => absurd rfl hne⟩
  intro t m h
  change HasRoute (Node.mk path ⟨method, some handler⟩ indices children) t m h ↔ _
  by_cases hnil : t = []
  · subst hnil
    rw [if_pos ⟨rfl, rfl⟩, hasRoute_nil_iff]
    constructor
    · intro heq
      cases heq
      exact ⟨rfl, rfl⟩
    · rintro ⟨rfl, rfl⟩
      rfl
  · rw [if_neg (fun hat => hnil hat.2)]
    exact ⟨fun hroute => hroute.of_slot hnil, fun hroute => hroute.of_slot hnil⟩

/-- The loop has gone down to the child for a parameter. -/
theorem Inserted.colon {child child' : Node H}
    (hchild : Inserted child toks method handler child' code) :
    Inserted (Node.mk path slot [typeColon] [child]) (.param child.path :: toks) method handler
      (Node.mk path slot [typeColon] [child']) code where
  path := rfl
  shape := .colon hchild.shape
  routes := by
    have hbehind := hchild.routes.behind [.param child.path]
    have hbeside := hbehind.beside (S := fun t m h => t = [] ∧ slot = ⟨m, some h⟩)
      fun _ _ hnil => List.cons_ne_nil _ _ hnil.1
    refine hbeside.congr (fun t m h => hasRoute_colon_iff) fun t m h => ?_
    rw [hasRoute_colon_iff, hchild.path]
  leaves := by
    intro t hleaf
    obtain ⟨t', rfl, hleaf'⟩ := leafAt_colon_iff.mp hleaf
    rw [hchild.path]
    obtain hold | ⟨hcode, rfl⟩ := hchild.leaves t' hleaf'
    · exact .inl (.colon hold)
    · exact .inr ⟨hcode, rfl⟩
  codes := hchild.codes
  fresh := fun hnil => by cases hnil
  inner := fun _ _ => List.cons_ne_nil _ _

/-- The loop has put a child in the place of others, in a node with static text below it. -/
theorem Inserted.text {indices' : Bytes} {pre olds post : List (Node H)} {child' : Node H}
    (hold : TextBelow indices (pre ++ olds ++ post))
    (hnew : TextBelow indices' (pre ++ [child'] ++ post))
    (hshapes : ∀ child ∈ pre ++ post, Shape child) (hshape : Shape child')
    (hothers : ∀ child ∈ pre ++ post, ∀ m h, ¬ Below child toks m h) (hne : toks ≠ [])
    (hroutes : Update code toks method handler
      (fun t m h => ∃ child ∈ olds, Below child t m h) (Below child'))
    (hleaves : ∀ t, LeafBelow child' t → (∃ child ∈ olds, LeafBelow child t) ∨ code = 0 ∧ t = toks)
    (hcodes : code = 0 ∨ code = -1) (hfresh : indices = [] → code = 0) :
    Inserted (Node.mk path slot indices (pre ++ olds ++ post)) toks method handler
      (Node.mk path slot indices' (pre ++ [child'] ++ post)) code := by
  have hmiddle : child' ∈ pre ++ [child'] ++ post := by simp
  have hinner : indices' ≠ [] := by
    obtain ⟨c, -, -, hc⟩ := hnew.head hmiddle
    exact List.ne_nil_of_mem hc
  refine ⟨rfl, .text hnew ?shape, ?routes, ?leaves, hcodes, hfresh, fun _ _ => hinner⟩
  case shape =>
    intro child hmem
    obtain hother | hat := mem_middle.mp hmem
    · exact hshapes child hother
    · rw [List.mem_singleton.mp hat]
      exact hshape
  case routes =>
    -- the slot of the node and the other children are beside the child that changes
    have hbeside := hroutes.beside (S := fun t m h =>
      (t = [] ∧ slot = ⟨m, some h⟩) ∨ ∃ child ∈ pre ++ post, Below child t m h) (by
        rintro m h (⟨hnil, -⟩ | ⟨child, hmem, hroute⟩)
        · exact hne hnil
        · exact hothers child hmem m h hroute)
    refine hbeside.congr (fun t m h => ?_) fun t m h => ?_
    · rw [hasRoute_text_iff hold, or_assoc, exists_mem_middle]
    · rw [hasRoute_text_iff hnew, or_assoc, exists_mem_middle, exists_mem_singleton]
  case leaves =>
    intro t hleaf
    rw [leafAt_text_iff hnew, exists_mem_middle, exists_mem_singleton] at hleaf
    rw [leafAt_text_iff hold, exists_mem_middle]
    obtain ⟨-, hnil⟩ | hother | hat := hleaf
    · exact absurd hnil hinner
    · exact .inl (.inr (.inl hother))
    · obtain hfrom | hend := hleaves t hat
      · exact .inl (.inr (.inr hfrom))
      · exact .inr hend

end Inserted

/-! ### The child of a character -/

section Children

variable {indices : Bytes} {pre post : List (Node H)} {child child' : Node H} {c : UInt8}

/-- The other children start with other characters. -/
theorem TextBelow.others (hbelow : TextBelow indices (pre ++ [child] ++ post))
    (hhead : child.path.head? = some c) {other : Node H} (hmem : other ∈ pre ++ post) :
    other.path.head? ≠ some c := by
  have hnodup : ((pre ++ [child] ++ post).map fun child => child.path.head?).Nodup := by
    rw [hbelow.heads]
    apply List.Nodup.map (Option.some_injective _)
    exact hbelow.sorted.imp fun hlt heq => by
      rw [heq] at hlt
      exact lt_irrefl _ hlt
  rw [List.append_assoc, List.singleton_append, List.map_append, List.map_cons,
    List.nodup_middle, List.nodup_cons, ← List.map_append, hhead] at hnodup
  intro hother
  apply hnodup.1
  rw [← hother]
  exact List.mem_map_of_mem hmem

/-- No route for a pattern goes through a child that starts with another character. -/
theorem not_below {other : Node H} {children : List (Node H)} {toks : List Tok}
    (hbelow : TextBelow indices children) (hmem : other ∈ children)
    (hother : other.path.head? ≠ some c) (m : Bytes) (h : H) :
    ¬ Below other (.lit c :: toks) m h := by
  rintro ⟨t', ht, -⟩
  obtain ⟨b, more, hpath, -⟩ := hbelow.head hmem
  rw [hpath] at ht hother
  cases ht
  exact hother rfl

/-- A child may be replaced by one that starts alike. -/
theorem TextBelow.replace (hbelow : TextBelow indices (pre ++ [child] ++ post))
    (hhead : child'.path.head? = child.path.head?)
    (hstatic : ∀ c ∈ child'.path, c ≠ typeColon ∧ c ≠ typeAsterisk) :
    TextBelow indices (pre ++ [child'] ++ post) where
  sorted := hbelow.sorted
  heads := by
    rw [← hbelow.heads]
    simp [hhead]
  static := by
    intro other hmem
    obtain hother | hat := mem_middle.mp hmem
    · exact hbelow.static other (mem_middle.mpr (.inl hother))
    · rw [List.mem_singleton.mp hat]
      exact hstatic

end Children

/-! ### Splitting a node -/

theorem take_common (xs ys : Bytes) : xs.take (common xs ys) = ys.take (common xs ys) := by
  induction xs generalizing ys with
  | nil => simp [common]
  | cons x xs ih =>
    cases ys with
    | nil => simp [common]
    | cons y ys =>
      rw [common]
      split
      case isTrue heq =>
        rw [List.take_succ_cons, List.take_succ_cons, ih, heq]
      case isFalse => rfl

theorem common_pos (c : UInt8) (xs ys : Bytes) : 0 < common (c :: xs) (c :: ys) := by
  rw [common, if_pos rfl]
  exact Nat.succ_pos _

section Split

variable {path path' indices : Bytes} {slot : HandlerT H} {children : List (Node H)}
  {child : Node H} {j : ℕ} {t : List Tok} {m : Bytes} {h : H}

theorem behind_append {p q : List Tok} {R : Routes H} :
    Behind (p ++ q) R t m h ↔ Behind p (Behind q R) t m h := by
  constructor
  · rintro ⟨t', rfl, hroute⟩
    exact ⟨q ++ t', List.append_assoc .., t', rfl, hroute⟩
  · rintro ⟨-, rfl, t', rfl, hroute⟩
    exact ⟨t', (List.append_assoc ..).symm, hroute⟩

theorem Behind.congr {p : List Tok} {R R' : Routes H} (hR : ∀ t, R t m h ↔ R' t m h) :
    Behind p R t m h ↔ Behind p R' t m h :=
  exists_congr fun t' => and_congr_right fun _ => hR t'

theorem HasRoute.of_path (hroute : HasRoute (mk path slot indices children) t m h) :
    HasRoute (mk path' slot indices children) t m h := by
  by_cases hnil : t = []
  · subst hnil
    exact hasRoute_nil_iff.mpr (hasRoute_nil_iff.mp hroute)
  · exact hroute.of_slot hnil

/-- The node above the cut has one child, which starts with the character behind the cut. -/
theorem split_eq (slot : HandlerT H) (indices : Bytes) (children : List (Node H))
    (hlt : j < path.length) : ∃ c,
    (mk path slot indices children).split j =
      mk (path.take j) {} [c] [mk (path.drop j) slot indices children] ∧
    (path.drop j).head? = some c := by
  obtain ⟨c, more, hdrop⟩ : ∃ c more, path.drop j = c :: more := by
    apply List.exists_cons_of_ne_nil
    apply List.ne_nil_of_length_pos
    rw [List.length_drop]
    exact Nat.sub_pos_of_lt hlt
  refine ⟨c, ?_, by rw [hdrop, List.head?_cons]⟩
  simp [split, Node.path, Node.handler, Node.indices, Node.children, hdrop]

/-- Cutting the text of a node in two changes nothing for the node above it. -/
theorem split_spec (hshape : Shape child)
    (hstatic : ∀ c ∈ child.path, c ≠ typeColon ∧ c ≠ typeAsterisk) (hlt : j < child.path.length) :
    Shape (child.split j) ∧ (∀ t m h, Below (child.split j) t m h ↔ Below child t m h) ∧
      ∀ t, LeafBelow (child.split j) t ↔ LeafBelow child t := by
  obtain ⟨path, slot, indices, children⟩ := child
  obtain ⟨c, hsplit, hhead⟩ := split_eq slot indices children (show j < path.length from hlt)
  have hpath : lits path = lits (path.take j) ++ lits (path.drop j) := by
    rw [← lits_append, List.take_append_drop]
  have hbelow : TextBelow [c] [mk (path.drop j) slot indices children] := by
    refine ⟨List.pairwise_singleton _ _, by simp [Node.path, hhead], ?_⟩
    intro child hmem b hb
    rw [List.mem_singleton.mp hmem] at hb
    exact hstatic b (List.mem_of_mem_drop hb)
  rw [hsplit]
  refine ⟨.text hbelow ?shape, fun t m h => ?routes, fun t => ?leaves⟩
  case shape =>
    intro child hmem
    rw [List.mem_singleton.mp hmem]
    exact hshape.of_slot
  case routes =>
    change Behind (lits (path.take j)) _ t m h ↔ Behind (lits path) _ t m h
    rw [hpath, behind_append]
    refine Behind.congr fun t => ?_
    rw [hasRoute_text_iff hbelow, exists_mem_singleton, or_iff_right]
    · exact Behind.congr fun t => ⟨fun hroute => hroute.of_path, fun hroute => hroute.of_path⟩
    · rintro ⟨-, heq⟩
      cases heq
  case leaves =>
    unfold LeafBelow
    constructor
    · rintro ⟨t', rfl, hleaf⟩
      rw [leafAt_text_iff hbelow, exists_mem_singleton] at hleaf
      obtain ⟨-, hnil⟩ | ⟨t', rfl, hleaf⟩ := hleaf
      · cases hnil
      · refine ⟨t', ?_, hleaf.of_slot⟩
        rw [← List.append_assoc]
        exact congrArg (· ++ t') hpath.symm
    · rintro ⟨t', rfl, hleaf⟩
      refine ⟨lits (path.drop j) ++ t', ?_, ?_⟩
      · rw [← List.append_assoc]
        exact congrArg (· ++ t') hpath
      · rw [leafAt_text_iff hbelow, exists_mem_singleton]
        exact .inr ⟨t', rfl, hleaf.of_slot⟩

/-- The loop cuts a node where the pattern leaves its text. -/
theorem cut_spec (hshape : Shape child)
    (hstatic : ∀ c ∈ child.path, c ≠ typeColon ∧ c ≠ typeAsterisk) :
    let node := if j < child.path.length then child.split j else child
    node.path = child.path.take j ∧ Shape node ∧
      (∀ t m h, Below node t m h ↔ Below child t m h) ∧
      ∀ t, LeafBelow node t ↔ LeafBelow child t := by
  intro node
  by_cases hlt : j < child.path.length
  · have hnode : node = child.split j := if_pos hlt
    rw [hnode]
    exact ⟨rfl, split_spec hshape hstatic hlt⟩
  · have hnode : node = child := if_neg hlt
    rw [hnode, List.take_of_length_le (Nat.le_of_not_lt hlt)]
    exact ⟨rfl, hshape, fun _ _ _ => Iff.rfl, fun _ => Iff.rfl⟩

end Split

/-! ### A new child -/

section Fresh

variable (path : Bytes) {indices : Bytes} (slot : HandlerT H) {children : List (Node H)}
  {child : Node H} {c : UInt8}

/-- A character that no child starts with has no child, unless it is the byte zero. -/
theorem getChild_of_not_mem (hc : c ∉ indices) (hzero : c ≠ 0) :
    (mk path slot indices children).getChild c = some none := by
  unfold getChild
  simp only
  rw [if_pos]
  change indices.getD (getIndexPosition indices c) 0 ≠ c
  rw [List.getD_eq_getElem?_getD]
  cases hat : indices[getIndexPosition indices c]? with
  | none => exact hzero.symm
  | some b =>
    intro heq
    apply hc
    rw [← show b = c from heq]
    exact List.mem_of_getElem? hat

/-- A new child is put between the others. -/
theorem insertChild_eq (hbelow : TextBelow indices children) (hc : c ∉ indices)
    (hhead : child.path.head? = some c)
    (hstatic : ∀ c ∈ child.path, c ≠ typeColon ∧ c ≠ typeAsterisk) :
    ∃ indices' pre post, children = pre ++ [] ++ post ∧
      (mk path slot indices children).insertChild c child =
        mk path slot indices' (pre ++ [child] ++ post) ∧
      TextBelow indices' (pre ++ [child] ++ post) := by
  have hsorted := BinarySearch.pairwise_insertIdx toInt8_injective hbelow.sorted hc
  rw [← getIndexPosition] at hsorted
  obtain ⟨ipre, ipost, pre, post, rfl, rfl, hlength, hplace, hheads, hheads', -, -⟩ :=
    hbelow.cut c
  rw [hplace, BinarySearch.insertIdx_append] at hsorted
  refine ⟨ipre ++ c :: ipost, pre, post, by rw [List.append_nil], ?_, hsorted, ?_, ?_⟩
  · rw [List.append_assoc, List.singleton_append]
    simp only [insertChild, Node.path, Node.handler, Node.indices, Node.children, hplace]
    rw [BinarySearch.insertIdx_append, ← hlength, BinarySearch.insertIdx_append]
  · simp [hheads, hheads', hhead]
  · intro other hmem
    obtain hother | hat := mem_middle.mp hmem
    · exact hbelow.static other hother
    · rw [List.mem_singleton.mp hat]
      exact hstatic

end Fresh

/-! ### A new branch -/

/-- A child with one route only. -/
structure Branch (child : Node H) (toks : List Tok) (method : Bytes) (handler : H) : Prop where
  shape : Shape child
  routes : ∀ t m h, Below child t m h ↔ t = toks ∧ m = method ∧ h = handler
  leaves : ∀ t, LeafBelow child t → t = toks

section Branch

variable {path name indices : Bytes} {slot : HandlerT H} {children : List (Node H)}
  {child param : Node H} {c : UInt8} {toks more : List Tok} {method : Bytes} {handler : H}

theorem textBelow_nil : TextBelow [] ([] : List (Node H)) :=
  ⟨.nil, rfl, fun _ hmem => by cases hmem⟩

theorem hasRoute_ofPath {t : List Tok} {m : Bytes} {h : H} : ¬ HasRoute (ofPath path) t m h := by
  unfold ofPath
  rw [hasRoute_text_iff textBelow_nil]
  rintro (⟨-, heq⟩ | ⟨child, hmem, -⟩)
  · cases heq
  · cases hmem

theorem leafAt_ofPath {t : List Tok} (hleaf : LeafAt (ofPath path : Node H) t) : t = [] := by
  unfold ofPath at hleaf
  rw [leafAt_text_iff textBelow_nil] at hleaf
  obtain ⟨hnil, -⟩ | ⟨child, hmem, -⟩ := hleaf
  · exact hnil
  · cases hmem

theorem insertChild_ofPath :
    (ofPath path).insertChild c child = mk path {} [c] [child] := rfl

theorem shape_leaf : Shape (Node.mk path slot [] []) :=
  .text textBelow_nil fun _ hmem => by cases hmem

/-- The new pattern ends with static text. -/
theorem branch_static :
    Branch ((ofPath path).addHandler handler method) (lits path) method handler where
  shape := shape_leaf
  routes := by
    intro t m h
    change Behind (lits path) (HasRoute (mk path ⟨method, some handler⟩ [] [])) t m h ↔ _
    constructor
    · rintro ⟨t', rfl, hroute⟩
      obtain ⟨rfl, heq⟩ | ⟨child, hmem, -⟩ := (hasRoute_text_iff textBelow_nil).mp hroute
      · cases heq
        exact ⟨List.append_nil _, rfl, rfl⟩
      · cases hmem
    · rintro ⟨rfl, rfl, rfl⟩
      exact ⟨[], (List.append_nil _).symm, .here⟩
  leaves := by
    rintro t ⟨t', rfl, hleaf⟩
    have hend : LeafAt (ofPath path : Node H) t' := hleaf.of_slot
    rw [leafAt_ofPath hend, List.append_nil]
    rfl

/-- The new pattern ends with the rest of the path. -/
theorem branch_asterisk :
    Branch ((ofPath path).insertChild typeAsterisk ((ofPath name).addHandler handler method))
      (lits path ++ [.rest name]) method handler := by
  rw [insertChild_ofPath]
  refine ⟨.asterisk, fun t m h => ?routes, fun t => ?leaves⟩
  case routes =>
    constructor
    · rintro ⟨t', rfl, hroute⟩
      generalize hslot : ({} : HandlerT H) = slot at hroute
      cases hroute with
      | here => cases hslot
      | asterisk => exact ⟨rfl, rfl, rfl⟩
      | text hbelow => exact absurd hbelow not_textBelow_asterisk
    · rintro ⟨rfl, rfl, rfl⟩
      exact ⟨_, rfl, .asterisk⟩
  case leaves =>
    rintro ⟨t', -, hleaf⟩
    cases hleaf with
    | text hbelow => exact absurd hbelow not_textBelow_asterisk

/-- The new pattern goes on with a parameter. -/
theorem branch_colon (hparam : Inserted (ofPath name) more method handler param 0) :
    Branch ((ofPath path).insertChild typeColon param) (lits path ++ .param name :: more) method
      handler := by
  rw [insertChild_ofPath]
  have hname : param.path = name := hparam.path
  refine ⟨.colon hparam.shape, fun t m h => ?routes, fun t => ?leaves⟩
  case routes =>
    change Behind (lits path) _ t m h ↔ _
    have hinner : ∀ t, HasRoute (mk path {} [typeColon] [param]) t m h ↔
        t = .param name :: more ∧ m = method ∧ h = handler := by
      intro t
      rw [hasRoute_colon_iff, or_iff_right (fun hat => by cases hat.2), hname]
      constructor
      · rintro ⟨t', rfl, hroute⟩
        rw [hparam.routes] at hroute
        split at hroute
        case isTrue hat => exact ⟨by rw [hat.2]; rfl, hroute⟩
        case isFalse => exact absurd hroute hasRoute_ofPath
      · rintro ⟨rfl, hroute⟩
        refine ⟨more, rfl, ?_⟩
        rw [hparam.routes, if_pos ⟨rfl, rfl⟩]
        exact hroute
    constructor
    · rintro ⟨t', rfl, hroute⟩
      obtain ⟨rfl, hvalue⟩ := (hinner t').mp hroute
      exact ⟨rfl, hvalue⟩
    · rintro ⟨rfl, hroute⟩
      exact ⟨_, rfl, (hinner _).mpr ⟨rfl, hroute⟩⟩
  case leaves =>
    rintro ⟨t', rfl, hleaf⟩
    obtain ⟨t'', rfl, hend⟩ := leafAt_colon_iff.mp hleaf
    rw [hname]
    obtain hold | ⟨-, rfl⟩ := hparam.leaves t'' hend
    · -- the new node for the parameter has children where the pattern goes on
      obtain rfl := leafAt_ofPath hold
      by_cases hmore : more = []
      · rw [hmore]
        rfl
      · exact absurd (leafAt_nil hend) (hparam.inner hmore rfl)
    · rfl

/-- The loop puts a new branch under a node. -/
theorem Inserted.branch (hbelow : TextBelow indices children)
    (hchildren : ∀ child ∈ children, Shape child) (hc : c ∉ indices)
    (hhead : child.path.head? = some c)
    (hstatic : ∀ c ∈ child.path, c ≠ typeColon ∧ c ≠ typeAsterisk)
    (hbranch : Branch child (.lit c :: toks) method handler) :
    Inserted (Node.mk path slot indices children) (.lit c :: toks) method handler
      ((Node.mk path slot indices children).insertChild c child) 0 := by
  obtain ⟨indices', pre, post, rfl, hinsert, hnew⟩ :=
    insertChild_eq path slot hbelow hc hhead hstatic
  rw [hinsert]
  have hothers : TextBelow indices (pre ++ post) := by
    rw [List.append_nil] at hbelow
    exact hbelow
  apply Inserted.text hbelow hnew ?_ hbranch.shape ?_ (List.cons_ne_nil _ _) ?_ ?_ (.inl rfl)
    fun _ => rfl
  · intro other hmem
    exact hchildren other (mem_middle.mpr (.inl hmem))
  · intro other hmem
    exact not_below hothers hmem (hnew.others hhead hmem)
  · intro t m h
    rw [hbranch.routes]
    by_cases hat : t = .lit c :: toks
    · rw [if_pos ⟨rfl, hat⟩, and_iff_right hat]
    · rw [if_neg (fun h => hat h.2)]
      simp [hat]
  · exact fun t hleaf => .inr ⟨rfl, hbranch.leaves t hleaf⟩

end Branch

/-! ### The loop -/

/-- No wildcard of the pattern comes where the tree ends. -/
def FitsBelow (root : Node H) (toks : List Tok) : Prop :=
  ∀ pre w post, toks = pre ++ w :: post → w.IsWild → ¬ LeafAt root pre

theorem FitsBelow.of_leaves {root node : Node H} {pre toks : List Tok}
    (hfits : FitsBelow root (pre ++ toks)) (hleaf : ∀ t, LeafAt node t → LeafAt root (pre ++ t)) :
    FitsBelow node toks := by
  rintro p w post rfl hwild hat
  apply hfits (pre ++ p) w post ?_ hwild (hleaf p hat)
  rw [List.append_assoc]

section Loop

variable (handler : H) (method : Bytes)

/-- What the loop does with a node that it has reached. -/
def goOn (rounds : ℕ) (node : Node H) (rest : Bytes) : Option (Node H × ℤ) :=
  if rest = [] then some (node.addHandler handler method, 0)
  else insertLoop handler method rounds node rest

/-- With so many rounds, the loop changes the routes as it should. -/
def LoopInserts (rounds : ℕ) : Prop :=
  ∀ {root : Node H} {toks : List Tok}, Shape root → Wf toks → Clean toks → toks ≠ [] →
    FitsBelow root toks → (render toks).length < rounds →
    ∃ root' code, insertLoop handler method rounds root (render toks) = some (root', code) ∧
      Inserted root toks method handler root' code

variable {handler method} {rounds : ℕ} {root : Node H} {toks : List Tok} {c : UInt8} {rest : Bytes}

theorem goOn_spec (hloop : LoopInserts handler method rounds) (hshape : Shape root)
    (hwf : Wf toks) (hclean : Clean toks) (hfits : FitsBelow root toks)
    (hrounds : (render toks).length < rounds) :
    ∃ root' code, goOn handler method rounds root (render toks) = some (root', code) ∧
      Inserted root toks method handler root' code := by
  unfold goOn
  by_cases hnil : toks = []
  · subst hnil
    exact ⟨_, _, if_pos rfl, .here hshape⟩
  · rw [if_neg (render_ne_nil hnil)]
    exact hloop hshape hwf hclean hnil hfits hrounds

theorem insertLoop_conflict (hconflict : root.conflict c rest) :
    insertLoop handler method (rounds + 1) root (c :: rest) = some (root, -1) := by
  rw [insertLoop]
  exact if_pos hconflict

theorem insertLoop_fresh (hconflict : ¬ root.conflict c rest)
    (hchild : root.getChild c = some none) :
    insertLoop handler method (rounds + 1) root (c :: rest) =
      if typeColon ∉ c :: rest then
        some (root.insertChild c
          (if typeAsterisk ∈ c :: rest then
            (ofPath ((c :: rest).takeWhile (· ≠ typeAsterisk))).insertChild typeAsterisk
              ((ofPath ((c :: rest).dropWhile (· ≠ typeAsterisk)).tail).addHandler handler method)
          else (ofPath ((c :: rest).takeWhile (· ≠ typeAsterisk))).addHandler handler method), 0)
      else
        (goOn handler method rounds (ofPath (nameOf ((c :: rest).dropWhile (· ≠ typeColon)).tail))
          (((c :: rest).dropWhile (· ≠ typeColon)).dropWhile (· ≠ typeSlash))).map
            fun (param, code) =>
              (root.insertChild c
                ((ofPath ((c :: rest).takeWhile (· ≠ typeColon))).insertChild typeColon param),
                code) := by
  rw [insertLoop]
  simp only [if_neg hconflict, hchild]
  rfl

theorem insertLoop_child {i : ℕ} {child : Node H} (hconflict : ¬ root.conflict c rest)
    (hfound : root.getChild c = some (some i)) (hchild : root.children[i]? = some child) :
    insertLoop handler method (rounds + 1) root (c :: rest) =
      (if c = typeColon then goOn handler method rounds child (rest.drop child.path.length)
      else goOn handler method rounds
        (if common (c :: rest) child.path < child.path.length then
          child.split (common (c :: rest) child.path) else child)
        ((c :: rest).drop (common (c :: rest) child.path))).map
      fun (child, code) => (root.setChild i child, code) := by
  rw [insertLoop]
  simp only [if_neg hconflict, hfound, hchild]
  rfl

section Cases

variable {path name indices : Bytes} {slot : HandlerT H} {children : List (Node H)}
  {child : Node H} {more : List Tok}

theorem conflict_colon :
    (mk path slot [typeColon] [child]).conflict c rest ↔
      ¬ (c = typeColon ∧ nameOf rest = child.path) := by
  have hne : typeColon ≠ typeAsterisk := by decide
  by_cases hc : c = typeColon
  · simp [conflict, Node.indices, Node.children, hc, hne]
  · simp [conflict, Node.indices, hc]

theorem conflict_asterisk : (mk path slot [typeAsterisk] children).conflict c rest := by
  simp [conflict, Node.indices]

/-- Where there is static text below, only static text can go on. -/
theorem conflict_text (hbelow : TextBelow indices children) :
    (mk path slot indices children).conflict c rest ↔
      indices ≠ [] ∧ (c = typeColon ∨ c = typeAsterisk) := by
  cases indices with
  | nil => simp [conflict, Node.indices]
  | cons index indices =>
    obtain ⟨hcolon, hasterisk⟩ := hbelow.index_static (List.mem_cons_self ..)
    by_cases hc : c = typeColon
    · simp [conflict, Node.indices, hcolon, hc]
    · simp [conflict, Node.indices, hcolon, hasterisk, hc]

theorem getChild_colon :
    (mk path slot [typeColon] [child]).getChild typeColon = some (some 0) := by
  simp [getChild, getIndexPosition, BinarySearch.place, BinarySearch.searchLoop, Node.indices,
    Node.children]

/-- A wildcard does not go where there is static text. -/
theorem refused_text (hbelow : TextBelow indices children)
    (hchildren : ∀ child ∈ children, Shape child)
    (hend : ¬ LeafAt (mk path slot indices children) [])
    (hc : c = typeColon ∨ c = typeAsterisk) :
    ∃ root' code, insertLoop handler method (rounds + 1) (mk path slot indices children) (c :: rest) =
        some (root', code) ∧
      Inserted (mk path slot indices children) toks method handler root' code := by
  have hne : indices ≠ [] := by
    rintro rfl
    exact hend .here
  exact ⟨_, _, insertLoop_conflict ((conflict_text hbelow).mpr ⟨hne, hc⟩),
    .refused (.text hbelow hchildren) hne⟩

/-- The pattern goes on with a parameter. -/
theorem loop_param (hloop : LoopInserts handler method rounds) (hshape : Shape root)
    (hwf : Wf (.param name :: more)) (hclean : Clean (.param name :: more))
    (hfits : FitsBelow root (.param name :: more))
    (hrounds : (render (.param name :: more)).length < rounds + 1) :
    ∃ root' code, insertLoop handler method (rounds + 1) root (render (.param name :: more)) =
        some (root', code) ∧
      Inserted root (.param name :: more) method handler root' code := by
  have hname : nameOf (name ++ render more) = name :=
    (takeWhile_stop hwf.1 (render_head_slash hwf.2.1)).1
  have hend : ¬ LeafAt root [] := hfits [] _ more rfl trivial
  rw [render]
  cases hshape with
  | @colon path slot child hchild =>
    by_cases heq : name = child.path
    · have hconflict : ¬ (mk path slot [typeColon] [child]).conflict typeColon
          (name ++ render more) := by
        rw [conflict_colon, hname, not_not]
        exact ⟨rfl, heq⟩
      have hlength : (render more).length < rounds := by
        rw [render, List.length_cons, List.length_append] at hrounds
        omega
      have hfits' : FitsBelow child more := by
        refine @FitsBelow.of_leaves _ _ _ [.param name] _ hfits ?_
        intro t hleaf
        rw [heq]
        exact .colon hleaf
      obtain ⟨child', code, hgo, hinserted⟩ :=
        goOn_spec hloop hchild hwf.2.2 hclean hfits' hlength
      have hat : (mk path slot [typeColon] [child]).children[0]? = some child := rfl
      rw [insertLoop_child hconflict getChild_colon hat, if_pos rfl, ← heq,
        List.drop_left, hgo]
      refine ⟨_, _, rfl, ?_⟩
      rw [heq]
      exact hinserted.colon
    · have hconflict : (mk path slot [typeColon] [child]).conflict typeColon
          (name ++ render more) := by
        rw [conflict_colon, hname]
        exact fun hat => heq hat.2
      exact ⟨_, _, insertLoop_conflict hconflict,
        .refused (.colon hchild) (List.cons_ne_nil _ _)⟩
  | asterisk =>
    exact ⟨_, _, insertLoop_conflict conflict_asterisk, .refused .asterisk (List.cons_ne_nil _ _)⟩
  | text hbelow hchildren =>
    exact refused_text hbelow hchildren hend (.inl rfl)

/-- The pattern ends with the rest of the path. -/
theorem loop_rest (hshape : Shape root) (hfits : FitsBelow root [.rest name]) :
    ∃ root' code, insertLoop handler method (rounds + 1) root (render [.rest name]) =
        some (root', code) ∧
      Inserted root [.rest name] method handler root' code := by
  have hend : ¬ LeafAt root [] := hfits [] _ [] rfl trivial
  rw [render]
  cases hshape with
  | colon hchild =>
    have hconflict : ¬ (typeAsterisk = typeColon ∧ nameOf (name ++ render []) = ‹Node H›.path) :=
      fun hat => absurd hat.1 (by decide)
    exact ⟨_, _, insertLoop_conflict (conflict_colon.mpr hconflict),
      .refused (.colon hchild) (List.cons_ne_nil _ _)⟩
  | asterisk =>
    exact ⟨_, _, insertLoop_conflict conflict_asterisk, .refused .asterisk (List.cons_ne_nil _ _)⟩
  | text hbelow hchildren =>
    exact refused_text hbelow hchildren hend (.inr rfl)

/-- Static text that a pattern starts with. -/
theorem lits_of_render {p s : Bytes} {toks : List Tok} (hrender : render toks = p ++ s)
    (hstatic : ∀ c ∈ p, c ≠ typeColon ∧ c ≠ typeAsterisk) :
    ∃ toks', toks = lits p ++ toks' ∧ render toks' = s := by
  induction p generalizing toks with
  | nil => exact ⟨toks, rfl, hrender⟩
  | cons c p ih =>
    obtain ⟨hcolon, hasterisk⟩ := hstatic c (List.mem_cons_self ..)
    cases toks with
    | nil => cases hrender
    | cons tok toks =>
      cases tok with
      | lit b =>
        obtain ⟨rfl, hrest⟩ := List.cons.inj hrender
        obtain ⟨toks', rfl, hrender'⟩ :=
          ih hrest fun b hb => hstatic b (List.mem_cons_of_mem _ hb)
        exact ⟨toks', rfl, hrender'⟩
      | param name => exact absurd (List.cons.inj hrender).1.symm hcolon
      | rest name => exact absurd (List.cons.inj hrender).1.symm hasterisk

theorem exists_middle {α : Type*} {as : List α} {i : ℕ} {a : α} (hat : as[i]? = some a) :
    ∃ pre post, as = pre ++ [a] ++ post ∧ i = pre.length := by
  obtain ⟨hlt, rfl⟩ := List.getElem?_eq_some_iff.mp hat
  refine ⟨as.take i, as.drop (i + 1), ?_, ?_⟩
  · rw [List.append_assoc, List.singleton_append, List.getElem_cons_drop, List.take_append_drop]
  · rw [List.length_take, Nat.min_eq_left (Nat.le_of_lt hlt)]

/-- The loop goes down to the child that starts like the pattern. -/
theorem loop_child (hloop : LoopInserts handler method rounds) (hbelow : TextBelow indices children)
    (hchildren : ∀ child ∈ children, Shape child) (hc : c ∈ indices)
    (hwf : Wf (.lit c :: more)) (hclean : Clean (.lit c :: more))
    (hfits : FitsBelow (mk path slot indices children) (.lit c :: more))
    (hrounds : (render (.lit c :: more)).length < rounds + 1) :
    ∃ root' code, insertLoop handler method (rounds + 1) (mk path slot indices children)
        (render (.lit c :: more)) = some (root', code) ∧
      Inserted (mk path slot indices children) (.lit c :: more) method handler root' code := by
  obtain ⟨child, hmem, more', hpath⟩ := hbelow.exists_child hc
  obtain ⟨i, hfound, hi⟩ := getChild_of_mem path slot hbelow hmem hpath
  have hstatic := hbelow.static child hmem
  have hconflict : ¬ (mk path slot indices children).conflict c (render more) := by
    rw [conflict_text hbelow]
    rintro ⟨-, hat | hat⟩
    · exact hwf.1 hat
    · exact hwf.2.1 hat
  rw [render, insertLoop_child hconflict hfound hi, if_neg hwf.1, ← render]
  generalize hj : common (render (.lit c :: more)) child.path = j
  have htake := take_common (render (.lit c :: more)) child.path
  have hpos : 0 < j := by
    rw [← hj, hpath]
    exact common_pos ..
  rw [hj] at htake
  obtain ⟨hnode, hshape, hroutes, hleaves⟩ := cut_spec (hchildren child hmem) hstatic
  generalize (if j < child.path.length then child.split j else child) = node at *
  -- the pattern starts with the text of the node as it is cut
  have hcut : ∀ b ∈ node.path, b ≠ typeColon ∧ b ≠ typeAsterisk := by
    intro b hb
    rw [hnode] at hb
    exact hstatic b (List.mem_of_mem_take hb)
  have hrender : render (.lit c :: more) = node.path ++ (render (.lit c :: more)).drop j := by
    rw [hnode, ← htake, List.take_append_drop]
  obtain ⟨toks', htoks, hrest⟩ := lits_of_render hrender hcut
  have hfits' : FitsBelow node toks' := by
    rw [htoks] at hfits
    apply hfits.of_leaves
    intro t hleaf
    rw [leafAt_text_iff hbelow]
    exact .inr ⟨child, hmem, (hleaves _).mp ⟨t, rfl, hleaf⟩⟩
  have hlength : (render toks').length < rounds := by
    have hne : 0 < (render (.lit c :: more)).length := Nat.succ_pos _
    rw [hrest, List.length_drop]
    omega
  rw [← hrest]
  rw [htoks] at hwf hclean
  obtain ⟨node', code, hgo, hinserted⟩ :=
    goOn_spec hloop hshape hwf.of_lits hclean.of_lits hfits' hlength
  rw [hgo]
  refine ⟨_, _, rfl, ?_⟩
  obtain ⟨pre, post, rfl, rfl⟩ := exists_middle hi
  have hset : (mk path slot indices (pre ++ [child] ++ post)).setChild pre.length node' =
      mk path slot indices (pre ++ [node'] ++ post) := by
    simp [setChild, Node.path, Node.handler, Node.indices, Node.children]
  rw [hset]
  have hhead : node'.path.head? = child.path.head? := by
    rw [hinserted.path, hnode, hpath]
    obtain ⟨j, rfl⟩ := Nat.exists_eq_succ_of_ne_zero (Nat.ne_of_gt hpos)
    rfl
  have hnew : TextBelow indices (pre ++ [node'] ++ post) := by
    apply hbelow.replace hhead
    rw [hinserted.path]
    exact hcut
  refine Inserted.text hbelow hnew ?shapes hinserted.shape ?others (List.cons_ne_nil _ _) ?routes
    ?leaves hinserted.codes fun hnil => ?fresh
  case shapes => exact fun other hother => hchildren other (mem_middle.mpr (.inl hother))
  case others =>
    intro other hother
    have hhead : child.path.head? = some c := by rw [hpath, List.head?_cons]
    exact not_below hbelow (mem_middle.mpr (.inl hother)) (hbelow.others hhead hother)
  case routes =>
    have hbehind := hinserted.routes.behind (lits node.path)
    rw [← htoks] at hbehind
    refine hbehind.congr (fun t m h => ?_) fun t m h => ?_
    · rw [exists_mem_singleton]
      exact (hroutes t m h).symm
    · rw [Below, hinserted.path]
  case leaves =>
    rintro t ⟨t', rfl, hleaf⟩
    rw [hinserted.path, exists_mem_singleton, htoks]
    obtain hold | ⟨hcode, rfl⟩ := hinserted.leaves t' hleaf
    · exact .inl ((hleaves _).mp ⟨t', rfl, hold⟩)
    · exact .inr ⟨hcode, rfl⟩
  case fresh =>
    rw [hnil] at hc
    cases hc

/-- The loop puts in a branch for what is left of the pattern. -/
theorem loop_new (hloop : LoopInserts handler method rounds) (hbelow : TextBelow indices children)
    (hchildren : ∀ child ∈ children, Shape child) (hc : c ∉ indices)
    (hwf : Wf (.lit c :: more)) (hclean : Clean (.lit c :: more))
    (hrounds : (render (.lit c :: more)).length < rounds + 1) :
    ∃ root' code, insertLoop handler method (rounds + 1) (mk path slot indices children)
        (render (.lit c :: more)) = some (root', code) ∧
      Inserted (mk path slot indices children) (.lit c :: more) method handler root' code := by
  have hconflict : ¬ (mk path slot indices children).conflict c (render more) := by
    rw [conflict_text hbelow]
    rintro ⟨-, hat | hat⟩
    · exact hwf.1 hat
    · exact hwf.2.1 hat
  have hfound : (mk path slot indices children).getChild c = some none :=
    getChild_of_not_mem path slot hc hclean.1
  rw [render, insertLoop_fresh hconflict hfound, ← render]
  obtain ⟨p, tail, htoks, hstatic, htail⟩ := hwf.cut
  obtain ⟨q, rfl⟩ : ∃ q, p = c :: q := by
    cases p with
    | nil =>
      obtain rfl | ⟨name, more, rfl⟩ | ⟨name, rfl⟩ := htail
      · cases htoks
      · cases htoks
      · cases htoks
    | cons b q =>
      cases htoks
      exact ⟨q, rfl⟩
  have hcolon : typeColon ∉ c :: q := fun hmem => (hstatic _ hmem).1 rfl
  have hasterisk : typeAsterisk ∉ c :: q := fun hmem => (hstatic _ hmem).2 rfl
  rw [htoks, render_lits]
  rw [htoks] at hwf hclean hrounds
  obtain rfl | ⟨name, more', rfl⟩ | ⟨name, rfl⟩ := htail
  · -- static text only
    have htake := (takeWhile_stop hasterisk (.inl rfl)).1
    rw [render, if_pos (by rwa [List.append_nil]), if_neg (by rwa [List.append_nil]), htake]
    rw [List.append_nil]
    exact ⟨_, _, rfl, .branch hbelow hchildren hc rfl hstatic branch_static⟩
  · -- a parameter comes next
    obtain ⟨htake, hdrop⟩ := takeWhile_stop hcolon
      (.inr ⟨_, rfl⟩ : render (.param name :: more') = [] ∨ _)
    have hwf' : Wf (.param name :: more') := hwf.of_lits
    have hname := takeWhile_stop hwf'.1 (render_head_slash hwf'.2.1)
    have hbehind : (typeColon :: (name ++ render more')).dropWhile (· ≠ typeSlash) =
        render more' := by
      rw [List.dropWhile_cons_of_pos (by decide)]
      exact hname.2
    have hlength : (render more').length < rounds := by
      rw [render_lits, render, List.length_append, List.length_cons, List.length_cons,
        List.length_append] at hrounds
      omega
    rw [if_neg (by simp [render]), htake, hdrop, render, List.tail_cons, nameOf, hname.1, hbehind]
    have hfits : FitsBelow (ofPath name : Node H) more' := by
      rintro pre w post rfl hwild hleaf
      obtain rfl := leafAt_ofPath hleaf
      obtain hnil | hhead := hwf'.2.1
      · cases hnil
      · rw [List.nil_append, List.head?_cons] at hhead
        cases hhead
        exact hwild
    have hshape : Shape (ofPath name : Node H) := shape_leaf
    obtain ⟨param, code, hgo, hinserted⟩ :=
      goOn_spec hloop hshape hwf'.2.2 hclean.of_lits hfits hlength
    rw [hgo]
    obtain rfl := hinserted.fresh rfl
    exact ⟨_, _, rfl, .branch hbelow hchildren hc rfl hstatic (branch_colon hinserted)⟩
  · -- the rest of the path comes next
    obtain ⟨htake, hdrop⟩ := takeWhile_stop hasterisk
      (.inr ⟨_, rfl⟩ : render [.rest name] = [] ∨ _)
    have hname : typeColon ∉ name := hclean.of_lits.1
    have hnone : typeColon ∉ c :: q ++ render [.rest name] := by
      rw [List.mem_append, not_or]
      refine ⟨hcolon, ?_⟩
      simp [render, hname, show typeColon ≠ typeAsterisk by decide]
    rw [if_pos hnone, if_pos (by simp [render]), htake, hdrop, render, List.tail_cons, render,
      List.append_nil]
    exact ⟨_, _, rfl, .branch hbelow hchildren hc rfl hstatic branch_asterisk⟩

end Cases

/-- The loop adds one route, or refuses the pattern, and keeps the other routes. -/
theorem insertLoop_spec (handler : H) (method : Bytes) (rounds : ℕ) :
    LoopInserts handler method rounds := by
  induction rounds with
  | zero => exact fun _ _ _ _ _ hrounds => absurd hrounds (Nat.not_lt_zero _)
  | succ rounds ih =>
    intro root toks hshape hwf hclean hne hfits hrounds
    cases toks with
    | nil => exact absurd rfl hne
    | cons tok toks =>
      cases tok with
      | param name => exact loop_param ih hshape hwf hclean hfits hrounds
      | rest name =>
        obtain rfl : toks = [] := hwf
        exact loop_rest hshape hfits
      | lit c =>
        cases hshape with
        | colon hchild =>
          exact ⟨_, _, insertLoop_conflict (conflict_colon.mpr fun hat => hwf.1 hat.1),
            .refused (.colon hchild) (List.cons_ne_nil _ _)⟩
        | asterisk =>
          exact ⟨_, _, insertLoop_conflict conflict_asterisk,
            .refused .asterisk (List.cons_ne_nil _ _)⟩
        | @text path indices slot children hbelow hchildren =>
          by_cases hc : c ∈ indices
          · exact loop_child ih hbelow hchildren hc hwf hclean hfits hrounds
          · exact loop_new ih hbelow hchildren hc hwf hclean hrounds

end Loop

end RadixTree

end Yalantinglibs.Cinatra
