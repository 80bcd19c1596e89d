import Yalantinglibs.StructPack.TypeCalculate
import Yalantinglibs.StructPack.FastVarint
import Mathlib.Data.List.Zip

/-!
# Typed values

The values of each type, the value that `T{}` creates and the value that a move leaves.

## Main definitions

* `HasTy` — `v` is a value of type `t`; one rule for each way a type is stored. The class of an
  object behind a pointer to a base class is to be found by its code
* `keyEquivalent`, `precedes` — how an associative container compares and orders its keys
* `fresh` — the value-initialised object
* `movedFrom` — what a move leaves in the source object, as libstdc++ and libc++ have it
* `pairImage` — the object representation of a pair, from those of its two members
-/

set_option autoImplicit false

namespace Yalantinglibs.StructPack

namespace TypeEnv

variable (Γ : TypeEnv)

/-- The types that are stored as an object representation when they are trivially
serializable, and as a tree otherwise. -/
def isAggregate : Ty → Bool
  | .array _ _ | .pair _ _ | .struct _ => true
  | _ => false

/-- Whether an associative container takes two keys for one. -/
def keyEquivalent (kind : AssociativeKind) (t : Ty) (x y : Val) : Bool :=
  if kind.hashed then Γ.keyEqual t x y else !Γ.keyLess t x y && !Γ.keyLess t y x

/-- Whether the key `x` may stand before the key `y` in an associative container. -/
def precedes (kind : AssociativeKind) (t : Ty) (x y : Val) : Bool :=
  if kind.hashed then kind.multi || !Γ.keyEqual t x y
  else !Γ.keyLess t y x && (kind.multi || Γ.keyLess t x y)

/-- `v` is a value of type `t`. -/
inductive HasTy : Ty → Val → Prop
  | fundamental (k : Fundamental) (b : Bytes) (hlen : b.length = k.size) :
      HasTy (.fundamental k) (.bytes b)
  | enumeration (name : ℕ) (k : Fundamental) (b : Bytes) (hlen : b.length = k.size) :
      HasTy (.enumeration name k) (.bytes b)
  | varInt (k : VarIntKind) (b : Bytes) (hlen : b.length = k.size) :
      HasTy (.varInt k) (.bytes b)
  | monostate : HasTy .monostate (.bytes [0])
  | image (t : Ty) (b : Bytes) (hagg : isAggregate t = true)
      (htriv : Γ.isTrivialSerializable t = true) (hlen : b.length = Γ.sizeof t) :
      HasTy t (.bytes b)
  | trivialView (t : Ty) (b : Bytes) (htriv : Γ.isTrivialSerializable t = true)
      (hlen : b.length = Γ.sizeof t) : HasTy (.trivialView t) (.bytes b)
  | container (kind : ContainerKind) (t : Ty) (xs : List Val) (hlen : xs.length < 2 ^ 64)
      (hxs : ∀ x ∈ xs, HasTy t x) : HasTy (.container kind t) (.list xs)
  | set (kind : AssociativeKind) (t : Ty) (xs : List Val) (hlen : xs.length < 2 ^ 64)
      (hkeys : xs.Pairwise fun x y => Γ.precedes kind t x y = true)
      (hxs : ∀ x ∈ xs, HasTy t x) : HasTy (.set kind t) (.list xs)
  | map (kind : AssociativeKind) (k m : Ty) (es : List (Val × Val)) (hlen : es.length < 2 ^ 64)
      (hkeys : es.Pairwise fun d e => Γ.precedes kind k d.1 e.1 = true)
      (hk : ∀ e ∈ es, HasTy k e.1) (hm : ∀ e ∈ es, HasTy m e.2) :
      HasTy (.map kind k m) (.list (es.map fun e => .entry e.1 e.2))
  | array (t : Ty) (n : ℕ) (xs : List Val) (htriv : Γ.isTrivialSerializable t = false)
      (hlen : xs.length = n) (hxs : ∀ x ∈ xs, HasTy t x) : HasTy (.array t n) (.list xs)
  | nullopt (t : Ty) : HasTy (.optional t) .null
  | optional (t : Ty) (v : Val) (hv : HasTy t v) : HasTy (.optional t) (.engaged v)
  | nullptr (t : Ty) : HasTy (.uniquePtr t) .null
  | uniquePtr (t : Ty) (v : Val) (hv : HasTy t v) : HasTy (.uniquePtr t) (.engaged v)
  | noObject (base : ℕ) : HasTy (.polymorphic base) .null
  | derived (base i : ℕ) (t : Ty) (v : Val)
      (hfound : Γ.searchDerived base (Γ.getStructPackId t) = some (i, t)) (hv : HasTy t v) :
      HasTy (.polymorphic base) (.alt i v)
  | variant (ts : List Ty) (i : ℕ) (t : Ty) (v : Val) (hcount : ts.length < 256)
      (hi : ts[i]? = some t) (hv : HasTy t v) : HasTy (.variant ts) (.alt i v)
  | value (t e : Ty) (v : Val) (hv : HasTy t v) : HasTy (.expected t e) (.alt 1 v)
  | error (t e : Ty) (v : Val) (hv : HasTy e v) : HasTy (.expected t e) (.alt 0 v)
  | pair (a b : Ty) (x y : Val) (htriv : Γ.isTrivialSerializable (.pair a b) = false)
      (hx : HasTy a x) (hy : HasTy b y) : HasTy (.pair a b) (.list [x, y])
  | tuple (ts : List Ty) (xs : List Val) (hlen : ts.length = xs.length)
      (hxs : ∀ p ∈ ts.zip xs, HasTy p.1 p.2) : HasTy (.tuple ts) (.list xs)
  | struct (name : ℕ) (xs : List Val) (htriv : Γ.isTrivialSerializable (.struct name) = false)
      (hlen : (Γ.fields name).length = xs.length)
      (hxs : ∀ p ∈ (Γ.fields name).zip xs, HasTy p.1 p.2) : HasTy (.struct name) (.list xs)
  | empty (t : Ty) (version : Version) : HasTy (.compatible t version) .null
  | compatible (t : Ty) (version : Version) (v : Val) (hv : HasTy t v) :
      HasTy (.compatible t version) (.engaged v)

/-- The bytes of a gap, given by the offsets of its ends. -/
def gap (padding : ℕ → UInt8) (start stop : ℕ) : Bytes :=
  (List.range (stop - start)).map fun i => padding (start + i)

@[simp] theorem gap_length (padding : ℕ → UInt8) (start stop : ℕ) :
    (gap padding start stop).length = stop - start := by
  simp [gap]

/-- The offset of the second member of a trivially serializable pair. -/
def secondOffset (a b : Ty) : ℕ := alignUp (Γ.sizeof a) (alignIn Γ.layouts b)

/-- The object representation of a trivially serializable pair. -/
def pairImage (a b : Ty) (x y : Bytes) (padding : ℕ → UInt8) : Bytes :=
  x ++ gap padding (Γ.sizeof a) (Γ.secondOffset a b) ++
    y ++ gap padding (Γ.secondOffset a b + Γ.sizeof b) (Γ.sizeof (.pair a b))

mutual

/-- The object that `T{}` creates. -/
def fresh : Ty → Val
  | .fundamental k => .bytes (List.replicate k.size 0)
  | .enumeration _ k => .bytes (List.replicate k.size 0)
  | .varInt k => .bytes (List.replicate k.size 0)
  | .monostate => .bytes [0]
  | .trivialView t => .bytes (List.replicate (Γ.sizeof t) 0)
  | .container _ _ => .list []
  | .set _ _ => .list []
  | .map _ _ _ => .list []
  | .array t n =>
    if Γ.isTrivialSerializable t then .bytes (List.replicate n (fresh t).repr).flatten
    else .list (List.replicate n (fresh t))
  | .optional _ => .null
  | .uniquePtr _ => .null
  | .polymorphic _ => .null
  | .variant ts => .alt 0 ((freshAll ts).headD .null)
  | .expected t _ => .alt 1 (fresh t)
  | .pair a b =>
    if Γ.isTrivialSerializable (.pair a b) then
      .bytes (Γ.pairImage a b (fresh a).repr (fresh b).repr fun _ => 0)
    else .list [fresh a, fresh b]
  | .tuple ts => .list (freshAll ts)
  | .struct name => (Γ.structs[name]?.map StructDef.init).getD (.list [])
  | .compatible _ _ => .null

def freshAll : List Ty → List Val
  | [] => []
  | t :: ts => fresh t :: freshAll ts

end

mutual

/-- The source of a move: containers are left empty and pointers null, an optional keeps
its moved-from payload, and an object representation is copied. -/
def movedFrom : Ty → Val → Val
  | .container kind _, v => if kind = .stringView ∨ kind = .span then v else .list []
  | .set _ _, _ => .list []
  | .map _ _ _, _ => .list []
  | .array t _, .list xs => .list (movedFromAll t xs)
  | .optional t, .engaged v => .engaged (movedFrom t v)
  | .uniquePtr _, _ => .null
  | .polymorphic _, _ => .null
  | .variant ts, .alt i v =>
    match ts[i]? with
    | some t => .alt i (movedFrom t v)
    | none => .alt i v
  | .expected t e, .alt i v => .alt i (movedFrom (if i = 1 then t else e) v)
  | .pair a b, .list xs => .list (movedFromMany [a, b] xs)
  | .tuple ts, .list xs => .list (movedFromMany ts xs)
  | .struct name, .list xs => .list (movedFromMany (Γ.fields name) xs)
  | .compatible t _, .engaged v => .engaged (movedFrom t v)
  | _, v => v

def movedFromAll (t : Ty) : List Val → List Val
  | [] => []
  | x :: xs => movedFrom t x :: movedFromAll t xs

def movedFromMany : List Ty → List Val → List Val
  | t :: ts, x :: xs => movedFrom t x :: movedFromMany ts xs
  | _, xs => xs

end

/-- A value of a trivially serializable type is its object representation. -/
theorem HasTy.exists_repr {Γ : TypeEnv} {t : Ty} {v : Val} (h : Γ.HasTy t v)
    (htriv : Γ.isTrivialSerializable t = true) :
    ∃ b, v = .bytes b ∧ b.length = Γ.sizeof t := by
  cases h with
  | fundamental k b hlen => exact ⟨b, rfl, hlen⟩
  | enumeration n k b hlen => exact ⟨b, rfl, hlen⟩
  | monostate => exact ⟨[0], rfl, rfl⟩
  | image t b hagg _ hlen => exact ⟨b, rfl, hlen⟩
  | array t n xs hnot => simp [hnot] at htriv
  | pair a b x y hnot => rw [htriv] at hnot; cases hnot
  | struct name xs hnot => rw [htriv] at hnot; cases hnot
  | varInt | trivialView | compatible | empty => simp at htriv
  | _ => simp [isTrivialSerializable, isTrivialSerializableIn] at htriv

section Images

variable {Γ : TypeEnv} {t : Ty} {xs : List Val}

/-- A block of object representations. -/
theorem flatMap_repr_length (h : ∀ x ∈ xs, Γ.HasTy t x)
    (htriv : Γ.isTrivialSerializable t = true) :
    (xs.flatMap Val.repr).length = xs.length * Γ.sizeof t := by
  induction xs with
  | nil => simp
  | cons x xs ih =>
    obtain ⟨b, rfl, hb⟩ := (h x List.mem_cons_self).exists_repr htriv
    rw [List.flatMap_cons, List.length_append, ih fun y hy => h y (List.mem_cons_of_mem _ hy),
      List.length_cons, Nat.succ_mul, Val.repr_bytes, hb]
    omega

theorem pairImage_length {a b : Ty} {x y : Bytes} {padding : ℕ → UInt8}
    (hx : x.length = Γ.sizeof a) (hy : y.length = Γ.sizeof b) :
    (Γ.pairImage a b x y padding).length = Γ.sizeof (.pair a b) := by
  have hle := Γ.le_sizeof_pair a b
  have hoff := le_alignUp (Γ.sizeof a) (alignIn Γ.layouts b)
  simp only [pairImage, List.length_append, gap_length, hx, hy, secondOffset]
  omega

end Images

/-! ### Varint members -/

section VarintMembers

variable {Γ : TypeEnv} {tag : SpConfig} {t : Ty} {v : Val} {ts : List Ty} {xs : List Val}

theorem wellSized_of_varintForm {f : VarintForm} (hf : varintForm tag t = some f)
    (h : Γ.HasTy t v) : VarintMember.WellSized (f, v.repr) := by
  refine ⟨varintForm_size hf, ?_⟩
  cases t with
  | fundamental k =>
    cases h with
    | fundamental _ b hlen =>
      simp only [varintForm] at hf
      split at hf
      · cases k <;> simp at hf <;> simp [← hf, hlen, Fundamental.size]
      · simp at hf
    | image _ b hagg => simp [isAggregate] at hagg
  | varInt k =>
    cases h with
    | varInt _ b hlen => cases k <;> simp [varintForm] at hf <;> simp [← hf, hlen, VarIntKind.size]
    | image _ b hagg => simp [isAggregate] at hagg
  | _ => simp [varintForm] at hf

theorem varintMembers_wellSized (h : ∀ p ∈ ts.zip xs, Γ.HasTy p.1 p.2) :
    ∀ m ∈ varintMembers tag ts xs, m.WellSized := by
  induction ts generalizing xs with
  | nil => simp [varintMembers]
  | cons t ts ih =>
    cases xs with
    | nil => simp [varintMembers]
    | cons x xs =>
      have ih : ∀ m ∈ varintMembers tag ts xs, m.WellSized := ih fun p hp => h p (by simp [hp])
      rw [varintMembers]
      split <;> rename_i hf
      · intro m hm
        rcases List.mem_cons.mp hm with rfl | hm
        · exact wellSized_of_varintForm hf (h (t, x) (by simp))
        · exact ih m hm
      · exact ih

/-- A varint member is an object representation. -/
theorem HasTy.eq_bytes_of_varint (h : Γ.HasTy t v) (hf : isVarint tag t = true) :
    v = .bytes v.repr := by
  cases h with
  | fundamental | varInt => rfl
  | image t b hagg => rfl
  | _ => simp [isVarint, varintForm] at hf

end VarintMembers

end TypeEnv

end Yalantinglibs.StructPack
