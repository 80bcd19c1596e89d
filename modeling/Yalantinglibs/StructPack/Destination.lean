import Yalantinglibs.StructPack.ReadBack

/-!
# What decoding leaves of the destination

The reader does not reset the object it decodes into. An optional that is read as empty, a
container of length `0` and a zero member of a fast varint struct are left as they are, a map
keeps its entries, and the elements of a set are decoded into one object. This file states when
an object comes out as the value that was written.

## Main definitions

* `TypeEnv.Settles` — the destinations that the payload pass turns into a value without
  `compatible` members
-/

set_option autoImplicit false

namespace Yalantinglibs.StructPack

open ByteCodec Decoding

namespace TypeEnv

variable (Γ : TypeEnv)

/-- The config under which the members of a class are coded. -/
def memberTag (t : Ty) : SpConfig :=
  if Γ.isTrivialIgnoringCompatible t then SpConfig.DEFAULT else Γ.getParentTag t

mutual

/-- The payload pass turns the object `old` into the value. -/
def Settles : Ty → Val → Val → Prop
  | .monostate, old, v => old = v
  | .uniquePtr _, old, .null => old = .null
  | .uniquePtr t, _, .engaged v => Settles t (Γ.fresh t) v
  | .polymorphic _, old, .null => old = .null
  | .polymorphic base, _, .alt i v =>
    match Γ.dispatch base i with
    | some (_, t) => Settles t (Γ.fresh t) v
    | none => True
  | .optional _, old, .null => old = .null
  | .optional t, _, .engaged v => Settles t (Γ.fresh t) v
  | .array t n, old, .list xs => SettlesMany SpConfig.DEFAULT (List.replicate n t) old.items xs
  | .container kind t, old, .list xs =>
    (xs = [] → old = .list []) ∧ (Γ.isTriviallyCopyable kind t = false → SettlesNew t xs)
  | .set _ t, old, .list xs => (xs = [] → old = .list []) ∧ SettlesKeys t (Γ.fresh t) xs
  -- the destination is not cleared, and a key that it holds keeps its value
  | .map _ k m, old, .list es => old = .list [] ∧ SettlesEntries k m es
  | .tuple ts, old, .list xs => SettlesMany SpConfig.DEFAULT ts old.items xs
  | .variant ts, _, .alt i v =>
    match ts[i]? with
    | some t => Settles t (Γ.fresh t) v
    | none => True
  | .expected t e, old, .alt i v =>
    if i = 1 then
      match old with
      | .alt 1 o => Settles t o v
      | _ => False
    else Settles e (Γ.fresh e) v
  | .pair a b, old, .list xs => SettlesMany (Γ.memberTag (.pair a b)) [a, b] old.items xs
  | .struct name, old, .list xs =>
    SettlesMany (Γ.memberTag (.struct name)) (Γ.fields name) old.items xs
  | _, _, _ => True

/-- New elements, each decoded into a fresh object. -/
def SettlesNew (t : Ty) : List Val → Prop
  | [] => True
  | x :: xs => Settles t (Γ.fresh t) x ∧ SettlesNew t xs

/-- The elements of a set, all decoded into one object that each insertion moves from. -/
def SettlesKeys (t : Ty) : Val → List Val → Prop
  | _, [] => True
  | value, x :: xs => Settles t value x ∧ SettlesKeys t (Γ.movedFrom t x) xs

/-- The entries of a map, key and value decoded into fresh objects. -/
def SettlesEntries (k m : Ty) : List Val → Prop
  | [] => True
  | e :: es => SettlesEntry k m e ∧ SettlesEntries k m es

/-- One entry. -/
def SettlesEntry (k m : Ty) : Val → Prop
  | .list xs => SettlesMany SpConfig.DEFAULT [k, m] [Γ.fresh k, Γ.fresh m] xs
  | _ => True

/-- Members under a config: a zero member of a fast varint block is left as it is. -/
def SettlesMany (tag : SpConfig) : List Ty → List Val → List Val → Prop
  | t :: ts, olds, x :: xs =>
    (if isEnableFastVarintCoding tag && isVarint tag t then
      ofLE x.repr = 0 → olds.headD .null = x
    else Settles t (olds.headD .null) x) ∧ SettlesMany tag ts olds.tail xs
  | _, _, _ => True

end

section

variable {Γ}

/-- An `expected` that holds an error does not settle for a value. -/
theorem settles_value (t e : Ty) (old v : Val) :
    Γ.Settles (.expected t e) old (.alt 1 v) ↔ ∃ o, old = .alt 1 o ∧ Γ.Settles t o v := by
  cases old with
  | alt i o =>
    by_cases hi : i = 1
    · subst hi
      simp [Settles]
    · simp only [Settles, if_true, Val.alt.injEq]
      split <;> simp_all
  | _ => simp [Settles]

theorem settles_error (t e : Ty) (old v : Val) :
    Γ.Settles (.expected t e) old (.alt 0 v) ↔ Γ.Settles e (Γ.fresh e) v := by
  simp only [Settles, zero_ne_one, if_false]

end

end TypeEnv

end Yalantinglibs.StructPack
