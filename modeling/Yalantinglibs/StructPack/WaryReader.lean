import Yalantinglibs.Data.ParallelDecoding
import Yalantinglibs.StructPack.Parts

/-!
# A reader that looks out for shortcuts

In skip mode `deserialize_one` takes shortcuts: a set or a map of trivially serializable elements is
passed over as one block, the entries of a map are skipped as pairs, and the elements of a loop are
all skipped into one object. This file has a reader that decodes as `deserialize_one` does, and
gives up where it comes to a container whose elements a shortcut would not consume as they are
decoded.

## Main definitions

* `Alternatives`, `alternatives` — which alternatives the `expected`s of an object hold
* `elementsSkip`, `keysSkip`, `entriesSkip` — the shortcuts are right for the elements of a
  container, of a set and of a map
* `wary` — the reader

## Main results

* `wary_agree_deserializeOne` — it decodes as `deserialize_one` does, unless it gives up
-/

set_option autoImplicit false

namespace Yalantinglibs.StructPack

open ByteCodec Decoding

namespace TypeEnv

variable (Γ : TypeEnv)

/-! ### The alternatives that an object holds -/

/-- The types of the objects that an object consists of, unless it is read as one block. -/
def memberTypes : Ty → List Ty
  | .array t n => if Γ.isTrivialSerializable (.array t n) then [] else List.replicate n t
  | .tuple ts => ts
  | .pair a b => if Γ.isTrivialSerializable (.pair a b) then [] else [a, b]
  | .struct name => if Γ.isTrivialSerializable (.struct name) then [] else Γ.fields name
  | _ => []

/-- Which alternatives the `expected`s of an object hold: those of its members come one after the
other. -/
inductive Alternatives
  | nothing
  | member (a rest : Alternatives)
  | error
  | value (a : Alternatives)
  deriving DecidableEq

/-- The alternatives of an object with such members. -/
def Alternatives.members : List Alternatives → Alternatives
  | [] => .nothing
  | a :: as => .member a (members as)

theorem Alternatives.members_inj {as bs : List Alternatives} :
    Alternatives.members as = Alternatives.members bs ↔ as = bs := by
  induction as generalizing bs with
  | nil => cases bs <;> simp [members]
  | cons a as ih => cases bs <;> simp [members, ih]

/-- Down to a depth. -/
def alternatives : ℕ → Ty → Val → Alternatives
  | 0, _, _ => .nothing
  | n + 1, .expected t _, x =>
    match x with
    | .alt 1 v => .value (alternatives n t v)
    | _ => .error
  | n + 1, t, x => .members (memberKeys (alternatives n) (Γ.memberTypes t) x.items)

/-- The object holds the same alternatives as a fresh one. In one that holds an error where a fresh
one holds a value, `value` throws. -/
def asFresh (n : ℕ) (t : Ty) (x : Val) : Bool :=
  decide (Γ.alternatives n t x = Γ.alternatives n t (Γ.fresh t))

/-! ### Shortcuts -/

/-- A block of `total` bytes is passed over at once. Where it is too short, decoding consumes the
elements that are there, from the `first` bytes on; that makes a difference if the code of the
failure is dropped. -/
def blockSkips (dropped : Bool) (first total : ℕ) (bs : Bytes) : Bool :=
  !dropped || decide (total ≤ bs.length ∨ bs.length < first)

/-- The elements of a container are skipped into one object. -/
def elementsSkip (read : PayloadReader) (n : ℕ) (kind : ContainerKind) (t : Ty) (size : ℕ)
    (bs : Bytes) : Bool :=
  (kind.continuous && Γ.isTrivialSerializable t) ||
    keepsFit (read true SpConfig.DEFAULT t (Γ.fresh t)) (Γ.asFresh n t) size bs

/-- Trivially serializable keys are skipped as a block; a `monostate` has a size and no bytes. -/
def keysSkip (dropped : Bool) (t : Ty) (size : ℕ) (bs : Bytes) : Bool :=
  !Γ.isTrivialSerializable t ||
    (decide (t ≠ .monostate) && blockSkips dropped (Γ.sizeof t) (size * Γ.sizeof t) bs)

/-- Of the entries of a map, all but the last leave key and mapped value as a fresh one has them. -/
def keepEntriesFit (readKey readMapped : Bytes → Decoded Val) (skipMapped : Into Errc Bytes Val)
    (fill : MapFilling) (fitKey fitMapped : Val → Bool) : ℕ → Val → List Val → Bytes → Bool
  | 0, _, _, _ => true
  | n + 1, value, es, bs =>
    match readKey bs with
    | .done k bs =>
      if fill.holds k es then
        match skipMapped value bs with
        | .done value bs =>
          n == 0 || (fitKey k && fitMapped value &&
            keepEntriesFit readKey readMapped skipMapped fill fitKey fitMapped n value
              (fill.skipped es) bs)
        | _ => true
      else
        match readMapped bs with
        | .done m bs =>
          n == 0 || (fitKey k && fitMapped m &&
            keepEntriesFit readKey readMapped skipMapped fill fitKey fitMapped n value
              (fill.insert (.entry k m) es) bs)
        | _ => true
    | _ => true

/-- The entries that are there before the loop over those that are read. -/
def oldEntries (kind : AssociativeKind) (k m : Ty) (item : Val) : List Val :=
  if Γ.hasOrderRecord kind k m then enterOrderRecord item.items else item.items

/-- The entries of a map are skipped as pairs: as a block if they are trivially serializable, and
otherwise into one pair. -/
def entriesSkip (read : PayloadReader) (n : ℕ) (dropped : Bool) (kind : AssociativeKind) (k m : Ty)
    (item : Val) (size : ℕ) (bs : Bytes) : Bool :=
  decide (Γ.PairSplits k m) &&
    if Γ.isTrivialSerializable (.pair k m) then
      blockSkips dropped (Γ.sizeof k) (size * Γ.sizeof (.pair k m)) bs
    else
      keepEntriesFit (read true SpConfig.DEFAULT k (Γ.fresh k))
        (read true SpConfig.DEFAULT m (Γ.fresh m)) (read false SpConfig.DEFAULT m)
        (Γ.mapFilling kind k m) (Γ.asFresh n k) (Γ.asFresh n m) size (Γ.fresh m)
        (Γ.oldEntries kind k m item) bs

/-- Where there is a length and it is not `0`, what `skips` says of it and of the bytes behind. -/
def lengthSkips (w : ℕ) (bs : Bytes) (skips : ℕ → Bytes → Bool) : Bool :=
  match read w bs with
  | .ok (b, rest) => ofLE b == 0 || skips (ofLE b) rest
  | .error _ => true

/-- The shortcuts are right for the elements of an object of type `t`, if it has any. -/
def shortcutsRight (read : PayloadReader) (n w : ℕ) (dropped : Bool) (item : Val) (bs : Bytes) :
    Ty → Bool
  | .container kind t => lengthSkips w bs (Γ.elementsSkip read n kind t)
  | .set _ t => lengthSkips w bs (Γ.keysSkip dropped t)
  | .map kind k m => lengthSkips w bs (Γ.entriesSkip read n dropped kind k m item)
  | _ => true

/-! ### The reader -/

/-- The code of what is read behind a flag, or the index of a variant, is dropped. -/
def dropsCode : Ty → Bool
  | .uniquePtr _ | .optional _ | .expected _ _ | .variant _ => true
  | _ => false

/-- `deserializeOne`, which gives up where it decodes and comes to an object for which the shortcuts
are not right. `dropped` says that the code of its failure is not looked at. -/
def wary : ℕ → ℕ → Bool → PayloadReader
  | 0, _, _, _, _, _ => fun _ _ => .tooDeep
  | n + 1, w, dropped, notSkip, tag, t => fun item bs =>
    if notSkip && !Γ.shortcutsRight (wary n w (dropped || dropsCode t)) n w dropped item bs t then
      .tooDeep
    else Γ.deserializeStep (wary n w (dropped || dropsCode t)) w notSkip tag t item bs

/-! ### It decodes as `deserializeOne` does -/

section Agreement

variable {Γ} {w : ℕ} {t k m : Ty} {x : Val} {bs : Bytes} {F G : PayloadReader}

/-- The calls of `F` end as those of `G` do, unless they give up. -/
def Follows (F G : PayloadReader) : Prop :=
  ∀ notSkip tag t x bs, (F notSkip tag t x bs).Agree (· = ·) (· = ·) (G notSkip tag t x bs)

theorem agree_self {α : Type} (o : Decoded α) : o.Agree (· = ·) (· = ·) o :=
  .refl o (fun _ => rfl) fun _ => rfl

theorem withBytes_agree_self {α : Type} {n : ℕ} {x : α} {next next' : Bytes → Bytes → Decoded α}
    (h : ∀ b rest, (next b rest).Agree (· = ·) (· = ·) (next' b rest)) :
    (withBytes n x bs next).Agree (· = ·) (· = ·) (withBytes n x bs next') := by
  rw [withBytes, withBytes]
  split
  · exact .fail rfl rfl
  · exact h _ _

theorem andThen_agree_self {α β : Type} {o o' : Decoded α} (h : o.Agree (· = ·) (· = ·) o')
    (p : α → β) {next next' : α → Bytes → Decoded β}
    (hn : ∀ x s, (next x s).Agree (· = ·) (· = ·) (next' x s)) :
    (o.andThen p next).Agree (· = ·) (· = ·) (o'.andThen p next') := by
  refine h.andThen ?_ ?_
  · rintro x _ rfl
    rfl
  · rintro x _ s rfl - -
    exact hn x s

theorem map_agree_self {α β : Type} {o o' : Decoded α} (h : o.Agree (· = ·) (· = ·) o')
    (f : α → β) : (o.map f).Agree (· = ·) (· = ·) (o'.map f) :=
  h.map fun _ _ hxy => congrArg f hxy

theorem deserializeSet_agree_self {read read' : Into Errc Bytes Val}
    (h : ∀ x s, (read x s).Agree (· = ·) (· = ·) (read' x s)) (moved : Val → Val)
    (insert : Val → List Val → List Val) (n : ℕ) (value : Val) (xs : List Val) (bs : Bytes) :
    (deserializeSet read moved insert n value xs bs).Agree (· = ·) (· = ·)
      (deserializeSet read' moved insert n value xs bs) := by
  induction n generalizing value xs bs with
  | zero => exact .done rfl
  | succ n ih => exact andThen_agree_self (h value bs) _ fun x s => ih _ _ s

theorem deserializeMap_agree_self {readKey readKey' readMapped readMapped' : Bytes → Decoded Val}
    {skipMapped skipMapped' : Into Errc Bytes Val}
    (hk : ∀ s, (readKey s).Agree (· = ·) (· = ·) (readKey' s))
    (hm : ∀ s, (readMapped s).Agree (· = ·) (· = ·) (readMapped' s))
    (hs : ∀ x s, (skipMapped x s).Agree (· = ·) (· = ·) (skipMapped' x s)) (fill : MapFilling)
    (n : ℕ) (value : Val) (es : List Val) (bs : Bytes) :
    (deserializeMap readKey readMapped skipMapped fill n value es bs).Agree (· = ·) (· = ·)
      (deserializeMap readKey' readMapped' skipMapped' fill n value es bs) := by
  induction n generalizing value es bs with
  | zero => exact .done rfl
  | succ n ih =>
    refine andThen_agree_self (hk bs) _ fun key s => ?_
    -- behind a key that is there, the mapped value is skipped
    split
    · exact andThen_agree_self (hs value s) _ fun value s => ih _ _ s
    · exact andThen_agree_self (hm s) _ fun mapped s => ih _ _ s

/-- The members of an object, one after the other. -/
theorem each_map_agree_self {ι : Type} {f g : ι → Into Errc Bytes Val}
    (h : ∀ i x s, (f i x s).Agree (· = ·) (· = ·) (g i x s)) (is : List ι) (xs : List Val)
    (bs : Bytes) : (each (is.map f) xs bs).Agree (· = ·) (· = ·) (each (is.map g) xs bs) := by
  apply each_agree_self
  rw [List.forall₂_map_left_iff, List.forall₂_map_right_iff, List.forall₂_same]
  exact fun i _ => h i

theorem deserializeElements_agree_self (h : Follows F G) (notSkip : Bool) (kind : ContainerKind)
    (t : Ty) (item : Val) (size : ℕ) (bs : Bytes) :
    (Γ.deserializeElements F notSkip kind t item size bs).Agree (· = ·) (· = ·)
      (Γ.deserializeElements G notSkip kind t item size bs) := by
  rw [deserializeElements, deserializeElements]
  -- one block, new elements, or all into one object
  split
  · exact agree_self _
  split
  · exact map_agree_self (appendNew_agree_self (h notSkip SpConfig.DEFAULT t) _ size bs) _
  · refine map_agree_self (again_agree (fun x y s hxy => ?_) size rfl bs) _
    rw [hxy]
    exact h notSkip SpConfig.DEFAULT t y s

theorem deserializeKeys_agree_self (h : Follows F G) (notSkip : Bool) (kind : AssociativeKind)
    (t : Ty) (item : Val) (size : ℕ) (bs : Bytes) :
    (Γ.deserializeKeys F notSkip kind t item size bs).Agree (· = ·) (· = ·)
      (Γ.deserializeKeys G notSkip kind t item size bs) := by
  rw [deserializeKeys, deserializeKeys]
  -- decoded, skipped as a block, or skipped into one object
  split
  · exact map_agree_self (deserializeSet_agree_self (h notSkip SpConfig.DEFAULT t) _ _ _ _ _ bs) _
  split
  · exact agree_self _
  · refine map_agree_self (again_agree (fun x y s hxy => ?_) size rfl bs) _
    rw [hxy]
    exact h notSkip SpConfig.DEFAULT t y s

theorem deserializeEntries_agree_self (h : Follows F G) (notSkip : Bool) (kind : AssociativeKind)
    (k m : Ty) (item : Val) (size : ℕ) (bs : Bytes) :
    (Γ.deserializeEntries F notSkip kind k m item size bs).Agree (· = ·) (· = ·)
      (Γ.deserializeEntries G notSkip kind k m item size bs) := by
  rw [deserializeEntries, deserializeEntries]
  -- decoded, skipped as a block, or skipped into one pair
  split
  · exact map_agree_self (deserializeMap_agree_self (h true SpConfig.DEFAULT k _)
      (h true SpConfig.DEFAULT m _) (h false SpConfig.DEFAULT m) _ _ _ _ bs) _
  split
  · exact agree_self _
  · refine map_agree_self (again_agree (fun x y s hxy => ?_) size rfl bs) _
    rw [hxy]
    exact h notSkip SpConfig.DEFAULT (.pair k m) y s

theorem deserializeClass_agree_self (h : Follows F G) (notSkip : Bool) (t : Ty) (item : Val)
    (bs : Bytes) :
    (Γ.deserializeClass F notSkip t item bs).Agree (· = ·) (· = ·)
      (Γ.deserializeClass G notSkip t item bs) := by
  rw [deserializeClass, deserializeClass]
  -- a block, members with padding behind each, or members with a fast varint block in front
  split
  · exact agree_self _
  split
  · rw [← List.map_uncurry_zip_eq_zipWith, ← List.map_uncurry_zip_eq_zipWith]
    refine map_agree_self (each_map_agree_self (fun p x s => ?_) _ _ bs) _
    exact andThen_agree_self (h notSkip SpConfig.DEFAULT p.1 x s) _ fun _ _ =>
      agree_self _
  · refine andThen_agree_self (agree_self _) _ fun xs s => ?_
    exact map_agree_self (each_map_agree_self (h notSkip _) _ _ s) _

/-- The code of what is read behind a flag is dropped. -/
theorem flagged_agree_self (h : Follows F G) (notSkip : Bool) (t : Ty) (x : Val) (c : Val → Val)
    (bs : Bytes) :
    (((F notSkip SpConfig.DEFAULT t x bs).map c).dropCode).Agree (· = ·) (· = ·)
      (((G notSkip SpConfig.DEFAULT t x bs).map c).dropCode) :=
  (map_agree_self (h notSkip SpConfig.DEFAULT t x bs) c).dropCode

/-- One step. -/
theorem deserializeStep_agree_self (h : Follows F G) (w : ℕ) :
    Follows (Γ.deserializeStep F w) (Γ.deserializeStep G w) := by
  intro notSkip tag t x bs
  have hlength : ∀ {next next' : ℕ → Bytes → Decoded Val},
      (∀ size rest, (next size rest).Agree (· = ·) (· = ·) (next' size rest)) →
        (withLength w x bs next).Agree (· = ·) (· = ·) (withLength w x bs next') := by
    intro next next' hnext
    refine withBytes_agree_self fun b rest => ?_
    split
    · exact agree_self _
    · exact hnext _ rest
  cases t with
  | uniquePtr t | optional t =>
    refine withBytes_agree_self fun b rest => ?_
    split
    · exact agree_self _
    · exact flagged_agree_self h notSkip t _ _ rest
  | polymorphic base =>
    refine withBytes_agree_self fun b rest => ?_
    split
    · exact agree_self _
    dsimp only
    split
    · exact agree_self _
    · exact map_agree_self (h notSkip SpConfig.DEFAULT _ _ _) _
  | array t n =>
    rw [deserializeStep, deserializeStep]
    split
    · exact agree_self _
    · rw [← List.map_replicate, ← List.map_replicate]
      exact map_agree_self (each_map_agree_self (h notSkip SpConfig.DEFAULT) _ _ bs) _
  | container kind t => exact hlength (deserializeElements_agree_self h notSkip kind t x)
  | set kind t => exact hlength (deserializeKeys_agree_self h notSkip kind t x)
  | map kind k m => exact hlength (deserializeEntries_agree_self h notSkip kind k m x)
  | tuple ts => exact map_agree_self (each_map_agree_self (h notSkip SpConfig.DEFAULT) ts _ bs) _
  | expected t e =>
    refine withBytes_agree_self fun b rest => ?_
    split
    · exact flagged_agree_self h notSkip e _ _ rest
    · split
      · exact flagged_agree_self h notSkip t _ _ rest
      · exact agree_self _
  | variant ts =>
    refine withBytes_agree_self fun b rest => ?_
    split
    · exact agree_self _
    · exact flagged_agree_self h notSkip _ _ _ rest
  | pair a b => exact deserializeClass_agree_self h notSkip (.pair a b) x bs
  | struct name => exact deserializeClass_agree_self h notSkip (.struct name) x bs
  | _ => exact agree_self _

/-- The reader decodes as `deserializeOne` does, unless it gives up. -/
theorem wary_agree_deserializeOne (n w : ℕ) (dropped : Bool) :
    Follows (Γ.wary n w dropped) (Γ.deserializeOne n w) := by
  induction n generalizing dropped with
  | zero => exact fun _ _ _ _ _ => .tooDeep
  | succ n ih =>
    intro notSkip tag t x bs
    rw [wary]
    dsimp only
    split
    · exact .tooDeep
    · exact deserializeStep_agree_self (ih (dropped || dropsCode t)) w notSkip tag t x bs

end Agreement

end TypeEnv

end Yalantinglibs.StructPack
