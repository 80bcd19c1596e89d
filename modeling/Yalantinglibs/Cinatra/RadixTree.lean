import Mathlib.Data.List.TakeWhile
import Mathlib.Logic.Function.Basic
import Yalantinglibs.Data.ByteCodec
import Yalantinglibs.Data.BinarySearch

/-!
# The radix tree of the router

`coro_radix_tree.hpp`. The routes with parameters are kept in a tree. A node has a text, the handler
of the route that ends there, and children; `indices` has the first character of each child. Below a
node there is either one child for a parameter (index `:`), or one for the rest of the path
(index `*`), or any number of children with static text.

`insert` splits a node where its text and the new pattern part. `get` goes down along the path and
takes the text up to the next `/` for a parameter, of whatever length it is.

The tree holds handlers of one kind: `coro_insert` and `get_coro` are the same two functions over
the other slot of a node, and the router keeps a tree for each of the two.

## Main definitions

* `Node` — a node of the tree
* `Node.insert`, `Node.get` — the two operations
-/

set_option autoImplicit false

namespace Yalantinglibs.Cinatra

namespace RadixTree

/-! ### Nodes -/

def typeAsterisk : UInt8 := 42

def typeColon : UInt8 := 58

def typeSlash : UInt8 := 47

/-- A handler, which may be empty, and the method it is for. -/
structure HandlerT (H : Type*) where
  method : Bytes := []
  handler : Option H := none
  deriving DecidableEq

inductive Node (H : Type*)
  | mk (path : Bytes) (handler : HandlerT H) (indices : Bytes) (children : List (Node H))

variable {H : Type*}

namespace Node

def path : Node H → Bytes
  | mk path _ _ _ => path

def handler : Node H → HandlerT H
  | mk _ handler _ _ => handler

def indices : Node H → Bytes
  | mk _ _ indices _ => indices

def children : Node H → List (Node H)
  | mk _ _ _ children => children

/-- A node with a text and nothing else. -/
def ofPath (path : Bytes) : Node H := mk path {} [] []

def getHandler (root : Node H) (method : Bytes) : Option H :=
  if root.handler.method = method then root.handler.handler else none

def addHandler (root : Node H) (handler : H) (method : Bytes) : Node H :=
  mk root.path ⟨method, some handler⟩ root.indices root.children

/-- Where a character is among the indices, or would be. A `char` has a sign. -/
def getIndexPosition (indices : Bytes) (target : UInt8) : ℕ :=
  BinarySearch.place (fun c => c.toInt8.toInt) indices target

def insertChild (root : Node H) (index : UInt8) (child : Node H) : Node H :=
  let i := getIndexPosition root.indices index
  mk root.path root.handler (root.indices.insertIdx i index) (root.children.insertIdx i child)

/-- The number of the child with an index, where there is one. Behind the last index the text has
the byte zero, so the search for that byte reads behind the last child; then there is no result. -/
def getChild (root : Node H) (index : UInt8) : Option (Option ℕ) :=
  let i := getIndexPosition root.indices index
  if root.indices.getD i 0 ≠ index then some none
  else if i < root.children.length then some (some i)
  else none

/-- Put a node in the place of a child. -/
def setChild (root : Node H) (i : ℕ) (child : Node H) : Node H :=
  mk root.path root.handler root.indices (root.children.set i child)

/-! ### Insertion -/

/-- The name of a parameter: the text behind its colon up to the next `/`. -/
def nameOf (rest : Bytes) : Bytes := rest.takeWhile (· ≠ typeSlash)

/-- The checks of the loop: what goes on with `c :: rest` cannot be below this node. -/
def conflict (root : Node H) (c : UInt8) (rest : Bytes) : Bool :=
  match root.indices with
  | [] => false
  | index :: _ =>
    index = typeAsterisk || c = typeAsterisk ||
    (c ≠ typeColon && index = typeColon) ||
    (c = typeColon && index ≠ typeColon) ||
    (c = typeColon && index = typeColon &&
      some (nameOf rest) ≠ (root.children[0]?).map path)

/-- How many characters two texts have in common at their start. -/
def common : Bytes → Bytes → ℕ
  | a :: as, b :: bs => if a = b then common as bs + 1 else 0
  | _, _ => 0

/-- Cut the text of a node after `j` characters; what was below it is then below the new child. -/
def split (root : Node H) (j : ℕ) : Node H :=
  let child := mk (root.path.drop j) root.handler root.indices root.children
  mk (root.path.take j) {} (child.path.take 1) [child]

section Insert

variable (handler : H) (method : Bytes)

/-- The loop of `insert` at a node, with what is left of the pattern. A round uses up at least one
character where the tree is as `insert` leaves it. -/
def insertLoop : ℕ → Node H → Bytes → Option (Node H × ℤ)
  | 0, _, _ => none
  | _ + 1, root, [] => some (root, 0)
  | rounds + 1, root, c :: rest =>
    -- a node reached with nothing left gets the handler, any other goes on with the loop
    let goOn (node : Node H) (rest : Bytes) : Option (Node H × ℤ) :=
      if rest = [] then some (node.addHandler handler method, 0) else insertLoop rounds node rest
    if root.conflict c rest then some (root, -1)
    else
      match root.getChild c with
      | none => none
      | some none =>
        let path := c :: rest
        if typeColon ∉ path then
          -- the last piece: static text, and a node for the rest of the path behind an asterisk
          let child := ofPath (path.takeWhile (· ≠ typeAsterisk))
          let child :=
            if typeAsterisk ∈ path then
              child.insertChild typeAsterisk
                ((ofPath (path.dropWhile (· ≠ typeAsterisk)).tail).addHandler handler method)
            else child.addHandler handler method
          some (root.insertChild c child, 0)
        else
          -- static text, which may be empty, and a parameter below it
          let behind := path.dropWhile (· ≠ typeColon)
          (goOn (ofPath (nameOf behind.tail)) (behind.dropWhile (· ≠ typeSlash))).map
            fun (param, code) =>
              (root.insertChild c
                ((ofPath (path.takeWhile (· ≠ typeColon))).insertChild typeColon param), code)
      | some (some i) =>
        match root.children[i]? with
        | none => none
        | some child =>
          let descended :=
            if c = typeColon then goOn child (rest.drop child.path.length)
            else
              let j := common (c :: rest) child.path
              goOn (if j < child.path.length then child.split j else child) ((c :: rest).drop j)
          descended.map fun (child, code) => (root.setChild i child, code)

/-- Register a pattern. The code is zero, or -1 where the pattern does not fit; a node may have been
split then. -/
def insert (root : Node H) (path : Bytes) : Option (Node H × ℤ) :=
  insertLoop handler method (path.length + 1) root path

/-- Register a pattern for a coroutine. The code is that of `insert` with the other slot. -/
abbrev coroInsert (root : Node H) (path : Bytes) : Option (Node H × ℤ) :=
  insert handler method root path

end Insert

/-! ### Search -/

/-- The texts of the parameters by their names. -/
abbrev Params := Bytes → Option Bytes

structure ParseResult (H : Type*) where
  found : Bool := false
  handler : Option H := none
  params : Params := fun _ => none

/-- By what kind of child the loop of `get` goes on. -/
inductive Edge
  | colon
  | asterisk
  | text

section Get

variable (method : Bytes)

mutual

/-- The loop of `get` at a node, with what is left of the path. -/
def get : Node H → Bytes → Params → Option (ParseResult H)
  | mk path handler indices children, [], params =>
    some ⟨true, (mk path handler indices children).getHandler method, params⟩
  | mk path handler indices children, c :: rest, params =>
    match indices.head? with
    | none => some {}
    | some index =>
      if index = typeColon then getBelow children 0 .colon (c :: rest) params
      else if index = typeAsterisk then getBelow children 0 .asterisk (c :: rest) params
      else
        match (mk path handler indices children).getChild c with
        | none => none
        | some none => some {}
        | some (some i) => getBelow children i .text (c :: rest) params

/-- The loop of `get` goes on at a child. -/
def getBelow : List (Node H) → ℕ → Edge → Bytes → Params → Option (ParseResult H)
  | [], _, _, _, _ => none
  | _ :: children, i + 1, edge, rest, params => getBelow children i edge rest params
  | child :: _, 0, edge, rest, params =>
    match edge with
    | .colon =>
      get child (rest.dropWhile (· ≠ typeSlash))
        (Function.update params child.path (some (nameOf rest)))
    | .asterisk =>
      some ⟨true, child.getHandler method, Function.update params child.path (some rest)⟩
    | .text =>
      if rest.take child.path.length = child.path then
        get child (rest.drop child.path.length) params
      else some {}

end

/-- The search for a coroutine. The code is that of `get` with the other slot. -/
abbrev getCoro (root : Node H) (path : Bytes) (params : Params) : Option (ParseResult H) :=
  get method root path params

end Get

end Node

end RadixTree

end Yalantinglibs.Cinatra
