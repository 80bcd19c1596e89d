import Mathlib.Data.List.Nodup
import Yalantinglibs.Cinatra.RadixTree

/-!
# The routes of the radix tree

A pattern is a list of tokens: characters of static text, parameters and a rest of the path. A tree
has a route for a pattern where going down along the pattern leads to a node with a handler. This
file has the shape of the trees that `insert` builds, and what `get` finds in such a tree: it goes
along the only route that the path fills.

## Main definitions

* `Tok`, `render`, `Wf` — patterns
* `Fills` — a path is an instance of a pattern
* `Shape`, `HasRoute`, `LeafAt` — a tree, its routes and its ends

## Main results

* `get_of_fills`, `fills_of_get` — a path is found by its route, and only by it
-/

set_option autoImplicit false

namespace Yalantinglibs.Cinatra

namespace RadixTree

open Node

variable {H : Type*}

/-! ### Patterns -/

/-- A piece of a pattern. -/
inductive Tok
  | lit (c : UInt8)
  | param (name : Bytes)
  | rest (name : Bytes)
  deriving DecidableEq

/-- A parameter or a rest of the path. -/
def Tok.IsWild : Tok → Prop
  | .lit _ => False
  | .param _ | .rest _ => True

/-- The text of a pattern. -/
def render : List Tok → Bytes
  | [] => []
  | .lit c :: toks => c :: render toks
  | .param name :: toks => typeColon :: (name ++ render toks)
  | .rest name :: toks => typeAsterisk :: (name ++ render toks)

/-- The name of a parameter ends before the next `/`, and a rest of the path is the last piece. -/
def Wf : List Tok → Prop
  | [] => True
  | .lit c :: toks => c ≠ typeColon ∧ c ≠ typeAsterisk ∧ Wf toks
  | .param name :: toks =>
    typeSlash ∉ name ∧ (toks = [] ∨ toks.head? = some (.lit typeSlash)) ∧ Wf toks
  | .rest _ :: toks => toks = []

/-- No byte zero is in the static text, and no colon in the name of a rest of the path. -/
def Clean : List Tok → Prop
  | [] => True
  | .lit c :: toks => c ≠ 0 ∧ Clean toks
  | .param _ :: toks => Clean toks
  | .rest name :: toks => typeColon ∉ name ∧ Clean toks

/-- Static text. -/
def lits (path : Bytes) : List Tok := path.map .lit

@[simp] theorem lits_nil : lits [] = [] := rfl

@[simp] theorem lits_cons {c : UInt8} {path : Bytes} : lits (c :: path) = .lit c :: lits path := rfl

theorem lits_append {p q : Bytes} : lits (p ++ q) = lits p ++ lits q := List.map_append

theorem render_lits {path : Bytes} {toks : List Tok} :
    render (lits path ++ toks) = path ++ render toks := by
  induction path with
  | nil => rfl
  | cons c path ih => rw [lits_cons, List.cons_append, render, ih, List.cons_append]

theorem Wf.of_lits {path : Bytes} {toks : List Tok} (hwf : Wf (lits path ++ toks)) : Wf toks := by
  induction path with
  | nil => exact hwf
  | cons c path ih => exact ih hwf.2.2

theorem Clean.of_lits {path : Bytes} {toks : List Tok} (hclean : Clean (lits path ++ toks)) :
    Clean toks := by
  induction path with
  | nil => exact hclean
  | cons c path ih => exact ih hclean.2

theorem render_ne_nil {toks : List Tok} (hne : toks ≠ []) : render toks ≠ [] := by
  cases toks with
  | nil => exact absurd rfl hne
  | cons tok toks => cases tok <;> exact List.cons_ne_nil _ _

/-- What follows a parameter is nothing, or starts with a `/`. -/
theorem render_head_slash {toks : List Tok}
    (htoks : toks = [] ∨ toks.head? = some (.lit typeSlash)) :
    render toks = [] ∨ ∃ more, render toks = typeSlash :: more := by
  obtain rfl | hhead := htoks
  · exact .inl rfl
  · cases toks with
    | nil => exact .inl rfl
    | cons tok toks =>
      obtain rfl : tok = .lit typeSlash := Option.some.inj hhead
      exact .inr ⟨_, rfl⟩

/-- The text up to the next stop, where it ends there. -/
theorem takeWhile_stop {stop : UInt8} {name more : Bytes} (hname : stop ∉ name)
    (hmore : more = [] ∨ ∃ rest, more = stop :: rest) :
    (name ++ more).takeWhile (· ≠ stop) = name ∧
      (name ++ more).dropWhile (· ≠ stop) = more := by
  have hall : ∀ c ∈ name, decide (c ≠ stop) := by
    intro c hc
    apply decide_eq_true
    rintro rfl
    exact hname hc
  rw [List.takeWhile_append_of_pos hall, List.dropWhile_append_of_pos hall]
  obtain rfl | ⟨rest, rfl⟩ := hmore
  · simp
  · simp

/-- A pattern starts with static text, and then there is a wildcard or nothing. -/
theorem Wf.cut {toks : List Tok} (hwf : Wf toks) :
    ∃ path tail, toks = lits path ++ tail ∧ (∀ c ∈ path, c ≠ typeColon ∧ c ≠ typeAsterisk) ∧
      (tail = [] ∨ (∃ name more, tail = .param name :: more) ∨ ∃ name, tail = [.rest name]) := by
  induction toks with
  | nil => exact ⟨[], [], rfl, by simp, .inl rfl⟩
  | cons tok toks ih =>
    cases tok with
    | lit c =>
      obtain ⟨path, tail, rfl, hpath, htail⟩ := ih hwf.2.2
      refine ⟨c :: path, tail, rfl, ?_, htail⟩
      intro b hb
      obtain rfl | hb := List.mem_cons.mp hb
      · exact ⟨hwf.1, hwf.2.1⟩
      · exact hpath b hb
    | param name => exact ⟨[], _, rfl, by simp, .inr (.inl ⟨name, toks, rfl⟩)⟩
    | rest name =>
      obtain rfl : toks = [] := hwf
      exact ⟨[], _, rfl, by simp, .inr (.inr ⟨name, rfl⟩)⟩

/-- A path is an instance of a pattern, with the text for each of its parameters. The text may be
empty for a parameter that is not at the end of the path. -/
inductive Fills : List Tok → Bytes → List (Bytes × Bytes) → Prop
  | nil : Fills [] [] []
  | lit {c : UInt8} {toks : List Tok} {path : Bytes} {values : List (Bytes × Bytes)}
      (hrest : Fills toks path values) : Fills (.lit c :: toks) (c :: path) values
  | param {name value : Bytes} {toks : List Tok} {path : Bytes} {values : List (Bytes × Bytes)}
      (hslash : typeSlash ∉ value) (hne : value ++ path ≠ []) (hrest : Fills toks path values) :
      Fills (.param name :: toks) (value ++ path) ((name, value) :: values)
  | rest {name value : Bytes} (hne : value ≠ []) : Fills [.rest name] value [(name, value)]

theorem fills_lits {p : Bytes} {toks : List Tok} {path : Bytes} {values : List (Bytes × Bytes)}
    (hfills : Fills toks path values) : Fills (lits p ++ toks) (p ++ path) values := by
  induction p with
  | nil => exact hfills
  | cons c p ih => exact .lit ih

theorem Fills.of_lits {p : Bytes} {toks : List Tok} {path : Bytes}
    {values : List (Bytes × Bytes)} (hfills : Fills (lits p ++ toks) path values) :
    ∃ more, path = p ++ more ∧ Fills toks more values := by
  induction p generalizing path with
  | nil => exact ⟨path, rfl, hfills⟩
  | cons c p ih =>
    cases hfills with
    | lit hrest =>
      obtain ⟨more, rfl, hmore⟩ := ih hrest
      exact ⟨more, rfl, hmore⟩

/-- Behind a parameter the path ends or goes on with a `/`. -/
theorem Fills.head_slash {toks : List Tok} {path : Bytes} {values : List (Bytes × Bytes)}
    (htoks : toks = [] ∨ toks.head? = some (.lit typeSlash)) (hfills : Fills toks path values) :
    path = [] ∨ ∃ rest, path = typeSlash :: rest := by
  cases hfills with
  | nil => exact .inl rfl
  | lit hrest =>
    obtain htoks | hhead := htoks
    · cases htoks
    · cases Option.some.inj hhead
      exact .inr ⟨_, rfl⟩
  | param => simp at htoks
  | rest => simp at htoks

/-- The texts of the parameters, the last one of a name. -/
def bind (params : Params) (values : List (Bytes × Bytes)) : Params :=
  values.foldl (fun params b => Function.update params b.1 (some b.2)) params

/-! ### The shape of a tree -/

/-- The children of a node with static text: in order of their first characters, which are the
indices. -/
structure TextBelow (indices : Bytes) (children : List (Node H)) : Prop where
  sorted : indices.Pairwise fun a b => a.toInt8.toInt < b.toInt8.toInt
  heads : children.map (fun child => child.path.head?) = indices.map some
  static : ∀ child ∈ children, ∀ c ∈ child.path, c ≠ typeColon ∧ c ≠ typeAsterisk

/-- A node has one child for a parameter, one for the rest of the path, or any number of children
with static text. -/
inductive Shape : Node H → Prop
  | colon {path : Bytes} {slot : HandlerT H} {child : Node H} (hchild : Shape child) :
      Shape (mk path slot [typeColon] [child])
  | asterisk {path name : Bytes} {slot below : HandlerT H} :
      Shape (mk path slot [typeAsterisk] [mk name below [] []])
  | text {path indices : Bytes} {slot : HandlerT H} {children : List (Node H)}
      (hbelow : TextBelow indices children) (hchildren : ∀ child ∈ children, Shape child) :
      Shape (mk path slot indices children)

/-- Along a pattern, the tree leads to a node with a handler. -/
inductive HasRoute : Node H → List Tok → Bytes → H → Prop
  | here {path indices method : Bytes} {children : List (Node H)} {handler : H} :
      HasRoute (mk path ⟨method, some handler⟩ indices children) [] method handler
  | colon {path method : Bytes} {slot : HandlerT H} {child : Node H} {toks : List Tok} {handler : H}
      (hchild : HasRoute child toks method handler) :
      HasRoute (mk path slot [typeColon] [child]) (.param child.path :: toks) method handler
  | asterisk {path name method : Bytes} {slot : HandlerT H} {handler : H} :
      HasRoute (mk path slot [typeAsterisk] [mk name ⟨method, some handler⟩ [] []]) [.rest name]
        method handler
  | text {path indices method : Bytes} {slot : HandlerT H} {children : List (Node H)}
      {child : Node H} {toks : List Tok} {handler : H} (hbelow : TextBelow indices children)
      (hmem : child ∈ children) (hchild : HasRoute child toks method handler) :
      HasRoute (mk path slot indices children) (lits child.path ++ toks) method handler

/-- Along a pattern, the tree leads to a node without children. -/
inductive LeafAt : Node H → List Tok → Prop
  | here {path : Bytes} {slot : HandlerT H} {children : List (Node H)} :
      LeafAt (mk path slot [] children) []
  | colon {path : Bytes} {slot : HandlerT H} {child : Node H} {toks : List Tok}
      (hchild : LeafAt child toks) :
      LeafAt (mk path slot [typeColon] [child]) (.param child.path :: toks)
  | text {path indices : Bytes} {slot : HandlerT H} {children : List (Node H)} {child : Node H}
      {toks : List Tok} (hbelow : TextBelow indices children) (hmem : child ∈ children)
      (hchild : LeafAt child toks) :
      LeafAt (mk path slot indices children) (lits child.path ++ toks)

section TextBelow

variable {indices : Bytes} {children : List (Node H)} {child : Node H} {c : UInt8}

/-- A child has a first character, which is one of the indices. -/
theorem TextBelow.head (hbelow : TextBelow indices children) (hmem : child ∈ children) :
    ∃ c more, child.path = c :: more ∧ c ∈ indices := by
  have hhead : child.path.head? ∈ indices.map some := by
    rw [← hbelow.heads]
    exact List.mem_map_of_mem hmem
  obtain ⟨c, hc, heq⟩ := List.mem_map.mp hhead
  cases hpath : child.path with
  | nil =>
    rw [hpath] at heq
    cases heq
  | cons b more =>
    rw [hpath] at heq
    cases heq
    exact ⟨c, more, rfl, hc⟩

/-- An index is the first character of a child. -/
theorem TextBelow.exists_child (hbelow : TextBelow indices children) (hc : c ∈ indices) :
    ∃ child ∈ children, ∃ more, child.path = c :: more := by
  have hhead : some c ∈ children.map fun child => child.path.head? := by
    rw [hbelow.heads]
    exact List.mem_map_of_mem hc
  obtain ⟨child, hmem, heq⟩ := List.mem_map.mp hhead
  cases hpath : child.path with
  | nil =>
    rw [hpath] at heq
    cases heq
  | cons b more =>
    rw [hpath] at heq
    cases heq
    exact ⟨child, hmem, more, hpath⟩

theorem TextBelow.index_static (hbelow : TextBelow indices children) (hc : c ∈ indices) :
    c ≠ typeColon ∧ c ≠ typeAsterisk := by
  obtain ⟨child, hmem, more, hpath⟩ := hbelow.exists_child hc
  apply hbelow.static child hmem
  rw [hpath]
  exact List.mem_cons_self ..

theorem not_textBelow_colon : ¬ TextBelow [typeColon] children :=
  fun hbelow => (hbelow.index_static (List.mem_singleton_self _)).1 rfl

theorem not_textBelow_asterisk : ¬ TextBelow [typeAsterisk] children :=
  fun hbelow => (hbelow.index_static (List.mem_singleton_self _)).2 rfl

/-- The children are cut in two where a character belongs. -/
theorem TextBelow.cut (hbelow : TextBelow indices children) (c : UInt8) :
    ∃ ipre ipost pre post, indices = ipre ++ ipost ∧ children = pre ++ post ∧
      pre.length = ipre.length ∧ getIndexPosition indices c = ipre.length ∧
      pre.map (fun child => child.path.head?) = ipre.map some ∧
      post.map (fun child => child.path.head?) = ipost.map some ∧
      (∀ a ∈ ipre, a.toInt8.toInt < c.toInt8.toInt) ∧
      ∀ a ∈ ipost, c.toInt8.toInt ≤ a.toInt8.toInt := by
  obtain ⟨ipre, ipost, rfl, hplace, hpre, hpost⟩ := BinarySearch.place_eq c hbelow.sorted
  have hheads := hbelow.heads
  rw [List.map_append] at hheads
  obtain ⟨pre, post, rfl, hheads_pre, hheads_post⟩ := List.map_eq_append_iff.mp hheads
  have hlength := congrArg List.length hheads_pre
  rw [List.length_map, List.length_map] at hlength
  exact ⟨ipre, ipost, pre, post, rfl, rfl, hlength, hplace, hheads_pre, hheads_post, hpre, hpost⟩

end TextBelow

/-! ### Search -/

theorem toInt8_injective : Function.Injective fun c : UInt8 => c.toInt8.toInt := by
  intro a b heq
  have heq8 : a.toInt8 = b.toInt8 := Int8.toInt_inj.mp heq
  rw [← UInt8.toUInt8_toInt8 a, heq8, UInt8.toUInt8_toInt8]

/-- The child with a first character is found. -/
theorem getChild_of_mem (path : Bytes) {indices : Bytes} (slot : HandlerT H)
    {children : List (Node H)}
    {child : Node H} {c : UInt8} {more : Bytes} (hbelow : TextBelow indices children)
    (hmem : child ∈ children) (hhead : child.path = c :: more) :
    ∃ i, (mk path slot indices children).getChild c = some (some i) ∧
      children[i]? = some child := by
  obtain ⟨k, hk⟩ := List.mem_iff_getElem?.mp hmem
  have hindex : indices[k]? = some c := by
    have hmap := congrArg (fun l => l[k]?) hbelow.heads
    simp only [List.getElem?_map, hk, Option.map_some, hhead, List.head?_cons] at hmap
    cases hi : indices[k]? with
    | none =>
      rw [hi] at hmap
      cases hmap
    | some b =>
      rw [hi] at hmap
      cases hmap
      rfl
  have hplace : indices[getIndexPosition indices c]? = some c :=
    BinarySearch.place_of_mem hbelow.sorted (List.mem_of_getElem? hindex)
  have hnodup : indices.Nodup := hbelow.sorted.imp fun hlt heq => by
    rw [heq] at hlt
    exact lt_irrefl _ hlt
  have hsame : getIndexPosition indices c = k := by
    obtain ⟨hlt, heq⟩ := List.getElem?_eq_some_iff.mp hplace
    obtain ⟨hlt', heq'⟩ := List.getElem?_eq_some_iff.mp hindex
    exact (List.Nodup.getElem_inj_iff hnodup).mp (heq.trans heq'.symm)
  refine ⟨k, ?_, hk⟩
  have hlt : k < children.length := (List.getElem?_eq_some_iff.mp hk).1
  simp [getChild, Node.indices, Node.children, hsame, hindex, hlt, List.getD_eq_getElem?_getD]

/-- A child that is found is there. -/
theorem getElem?_of_getChild {root : Node H} {c : UInt8} {i : ℕ}
    (hchild : root.getChild c = some (some i)) : ∃ child, root.children[i]? = some child := by
  unfold getChild at hchild
  simp only at hchild
  split at hchild
  · cases hchild
  · split at hchild
    case isTrue hlt =>
      cases hchild
      exact ⟨_, List.getElem?_eq_getElem hlt⟩
    case isFalse => cases hchild

theorem getBelow_eq {method : Bytes} {children : List (Node H)} {i : ℕ} {child : Node H}
    {edge : Edge} {rest : Bytes} {params : Params} (hchild : children[i]? = some child) :
    getBelow method children i edge rest params = getBelow method [child] 0 edge rest params := by
  induction i generalizing children with
  | zero =>
    cases children with
    | nil => cases hchild
    | cons first children =>
      obtain rfl : first = child := Option.some.inj hchild
      cases edge <;> simp only [getBelow]
  | succ i ih =>
    cases children with
    | nil => cases hchild
    | cons first children =>
      rw [getBelow]
      exact ih hchild

section Get

variable {method : Bytes} {path rest : Bytes} {slot : HandlerT H} {params : Params}

theorem get_colon {child : Node H} (hne : rest ≠ []) :
    Node.get method (mk path slot [typeColon] [child]) rest params =
      Node.get method child (rest.dropWhile (· ≠ typeSlash))
        (Function.update params child.path (some (nameOf rest))) := by
  cases rest with
  | nil => exact absurd rfl hne
  | cons c rest => simp only [Node.get, List.head?_cons, if_pos, getBelow]

theorem get_asterisk {child : Node H} (hne : rest ≠ []) :
    Node.get method (mk path slot [typeAsterisk] [child]) rest params =
      some ⟨true, child.getHandler method, Function.update params child.path (some rest)⟩ := by
  cases rest with
  | nil => exact absurd rfl hne
  | cons c rest =>
    simp only [Node.get, List.head?_cons, if_neg (show typeAsterisk ≠ typeColon by decide), if_pos,
      getBelow]

theorem get_text {indices : Bytes} {children : List (Node H)} {c : UInt8}
    (hbelow : TextBelow indices children) (hne : indices ≠ []) :
    Node.get method (mk path slot indices children) (c :: rest) params =
      match (mk path slot indices children).getChild c with
      | none => none
      | some none => some {}
      | some (some i) => getBelow method children i .text (c :: rest) params := by
  cases indices with
  | nil => exact absurd rfl hne
  | cons index indices =>
    obtain ⟨hcolon, hasterisk⟩ := hbelow.index_static (List.mem_cons_self ..)
    rw [Node.get]
    exact (if_neg hcolon).trans (if_neg hasterisk)

theorem getBelow_text {child : Node H} :
    getBelow method [child] 0 .text rest params =
      if rest.take child.path.length = child.path then
        Node.get method child (rest.drop child.path.length) params
      else some {} := by
  simp only [getBelow]

/-- The handler of a slot for a method. -/
def answer (method method' : Bytes) (handler : H) : Option H :=
  if method' = method then some handler else none

/-- Along the route that the path fills, its handler and its parameters are found. -/
theorem get_of_fills {root : Node H} {toks : List Tok} {method' : Bytes} {handler : H}
    {values : List (Bytes × Bytes)} (hroute : HasRoute root toks method' handler) (hwf : Wf toks)
    (hfills : Fills toks rest values) :
    Node.get method root rest params =
      some ⟨true, answer method method' handler, bind params values⟩ := by
  induction hroute generalizing rest params values with
  | here =>
    cases hfills
    rw [Node.get]
    rfl
  | @colon _ _ _ child toks _ hchild ih =>
    cases hfills with
    | @param _ value _ path values hslash hne hrest =>
      obtain ⟨htake, hdrop⟩ := takeWhile_stop hslash (hrest.head_slash hwf.2.1)
      rw [get_colon hne, nameOf, htake, hdrop, ih hwf.2.2 hrest]
      rfl
  | asterisk =>
    cases hfills with
    | rest hne =>
      rw [get_asterisk hne]
      rfl
  | @text _ indices _ _ children child toks _ hbelow hmem hchild ih =>
    obtain ⟨more, rfl, hmore⟩ := hfills.of_lits
    obtain ⟨c, p, hpath, hc⟩ := hbelow.head hmem
    rw [hpath, List.cons_append, get_text hbelow (List.ne_nil_of_mem hc)]
    obtain ⟨i, hfound, hi⟩ := getChild_of_mem _ _ hbelow hmem hpath
    rw [hfound]
    simp only
    rw [getBelow_eq hi, getBelow_text, hpath, ← List.cons_append, List.take_left, if_pos rfl,
      List.drop_left]
    exact ih hwf.of_lits hmore

theorem handler_of_getHandler {root : Node H} {handler : H}
    (hget : root.getHandler method = some handler) : root.handler = ⟨method, some handler⟩ := by
  unfold getHandler at hget
  split at hget
  case isTrue hmethod =>
    cases hslot : root.handler with
    | mk method' handler' =>
      rw [hslot] at hget hmethod
      cases hmethod
      cases hget
      rfl
  case isFalse => cases hget

/-- Where the path ends, the node has the handler. -/
theorem fills_of_get_nil {indices : Bytes} {children : List (Node H)} {handler : H}
    {params' : Params}
    (hget : Node.get method (mk path slot indices children) [] params =
      some ⟨true, some handler, params'⟩) :
    ∃ toks values, HasRoute (mk path slot indices children) toks method handler ∧
      Fills toks [] values ∧ params' = bind params values := by
  rw [Node.get] at hget
  injection hget with hget
  injection hget with _ hhandler hparams
  obtain rfl : slot = ⟨method, some handler⟩ := handler_of_getHandler hhandler
  exact ⟨[], [], .here, .nil, hparams.symm⟩

/-- What is found is a route that the path fills. -/
theorem fills_of_get {root : Node H} {handler : H} {params' : Params} (hshape : Shape root)
    (hget : Node.get method root rest params = some ⟨true, some handler, params'⟩) :
    ∃ toks values, HasRoute root toks method handler ∧ Fills toks rest values ∧
      params' = bind params values := by
  induction hshape generalizing rest params with
  | @colon path slot child hchild ih =>
    cases rest with
    | nil => exact fills_of_get_nil hget
    | cons c rest =>
      rw [get_colon (List.cons_ne_nil _ _)] at hget
      obtain ⟨toks, values, hroute, hfills, hparams⟩ := ih hget
      have hcut : nameOf (c :: rest) ++ (c :: rest).dropWhile (· ≠ typeSlash) = c :: rest :=
        List.takeWhile_append_dropWhile
      have hparam : Fills (.param child.path :: toks)
          (nameOf (c :: rest) ++ (c :: rest).dropWhile (· ≠ typeSlash))
          ((child.path, nameOf (c :: rest)) :: values) := by
        apply Fills.param ?_ ?_ hfills
        · intro hmem
          have hslash := List.mem_takeWhile_imp hmem
          simp at hslash
        · rw [hcut]
          exact List.cons_ne_nil _ _
      rw [hcut] at hparam
      exact ⟨_, _, .colon hroute, hparam, hparams⟩
  | @asterisk path name slot below =>
    cases rest with
    | nil => exact fills_of_get_nil hget
    | cons c rest =>
      rw [get_asterisk (List.cons_ne_nil _ _)] at hget
      injection hget with hget
      injection hget with _ hhandler hparams
      obtain rfl : below = ⟨method, some handler⟩ := handler_of_getHandler hhandler
      exact ⟨_, _, .asterisk, .rest (List.cons_ne_nil _ _), hparams.symm⟩
  | @text path indices slot children hbelow hchildren ih =>
    cases rest with
    | nil => exact fills_of_get_nil hget
    | cons c rest =>
      by_cases hne : indices = []
      · subst hne
        rw [Node.get] at hget
        cases hget
      rw [get_text hbelow hne] at hget
      split at hget
      · cases hget
      · cases hget
      next i hfound =>
        obtain ⟨child, hi⟩ := getElem?_of_getChild hfound
        rw [getBelow_eq (show children[i]? = some child from hi), getBelow_text] at hget
        split at hget
        case isFalse => cases hget
        case isTrue htake =>
          have hmem : child ∈ children := List.mem_of_getElem? hi
          obtain ⟨toks, values, hroute, hfills, hparams⟩ := ih child hmem hget
          refine ⟨_, values, .text hbelow hmem hroute, ?_, hparams⟩
          have hcut := List.take_append_drop child.path.length (c :: rest)
          rw [htake] at hcut
          rw [← hcut]
          exact fills_lits hfills

end Get

end RadixTree

end Yalantinglibs.Cinatra
