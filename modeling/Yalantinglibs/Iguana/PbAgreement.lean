import Yalantinglibs.Iguana.PbPayload
import Yalantinglibs.Iguana.PbReader

/-!
# The two passes of the writer of struct_pb

Where the second pass finds the sizes that the first one has left for it.

## Main definitions

* `Chunk.Sound` — each size that is written is that of what comes behind it
* `Agrees` — both passes stand for the same bytes, and the second takes what the first records
* `Sized` — the values whose sizes are found

## Main results

* `agrees_of_sized` — the passes agree on such a value
* `toPb_eq` — and its bytes are written
-/

set_option autoImplicit false

namespace Yalantinglibs.Iguana.Pb

open ByteCodec Writes

/-! ### Chunks -/

mutual

/-- Each size is that of what comes behind it. -/
def Chunk.Sound : Chunk → Prop
  | .raw _ => True
  | .delimited size body => size = (bytesOf body).length ∧ AllSound body

def AllSound : List Chunk → Prop
  | [] => True
  | c :: cs => c.Sound ∧ AllSound cs

end

@[simp] theorem bytesOf_append (cs ds : List Chunk) :
    bytesOf (cs ++ ds) = bytesOf cs ++ bytesOf ds := by
  induction cs with
  | nil => rfl
  | cons c cs ih => rw [List.cons_append, bytesOf, bytesOf, ih, List.append_assoc]

theorem AllSound.append {cs ds : List Chunk} (hc : AllSound cs) (hd : AllSound ds) :
    AllSound (cs ++ ds) := by
  induction cs with
  | nil => exact hd
  | cons c cs ih => exact ⟨hc.1, ih hc.2⟩

theorem AllSound.right {cs ds : List Chunk} (h : AllSound (cs ++ ds)) : AllSound ds := by
  induction cs with
  | nil => exact h
  | cons c cs ih => exact ih h.2

theorem Writes.andThen_assoc (f g h : Writes) :
    (f.andThen g).andThen h = f.andThen (g.andThen h) := by
  funext ptr
  simp only [Writes.andThen]
  cases f ptr with
  | none => rfl
  | some p =>
    simp only
    cases g p.2 with
    | none => rfl
    | some q =>
      simp only [Option.map_some]
      cases h q.2 with
      | none => rfl
      | some r => simp

theorem Writes.andThen_done (f : Writes) : f.andThen done = f := by
  funext ptr
  simp only [Writes.andThen]
  cases f ptr with
  | none => rfl
  | some p => simp [done]

theorem Sizes.add_zero (a : Sizes) : a.add (0, []) = a := by
  simp [Sizes.add]

/-- The second pass writes these bytes with the entries that the first pass appends, and no
others; the first pass tells how many they are. -/
structure Agrees (w : Writes) (size : Sizes) (b : Bytes) : Prop where
  size_eq : size.1 = BitVec.ofNat 64 b.length
  writes : ∃ cs, bytesOf cs = b ∧ AllSound cs ∧ ∀ rest, w (size.2 ++ rest) = some (cs, rest)
  silent : b = [] → size.2 = []

namespace Agrees

variable {f g : Writes} {s s' : Sizes} {b b' : Bytes}

theorem done : Agrees Writes.done (0, []) [] where
  size_eq := rfl
  writes := ⟨[], rfl, trivial, fun _ => rfl⟩
  silent _ := rfl

theorem raw (b : Bytes) : Agrees (emit (.raw b)) (BitVec.ofNat 64 b.length, []) b where
  size_eq := rfl
  writes := ⟨[.raw b], List.append_nil b, ⟨trivial, trivial⟩, fun _ => rfl⟩
  silent _ := rfl

theorem andThen (hf : Agrees f s b) (hg : Agrees g s' b') :
    Agrees (f.andThen g) (s.add s') (b ++ b') := by
  obtain ⟨cs, hcs, hsound, hw⟩ := hf.writes
  obtain ⟨ds, hds, hsound', hw'⟩ := hg.writes
  refine ⟨?_, ⟨cs ++ ds, ?_, hsound.append hsound', fun rest => ?_⟩, fun hnil => ?_⟩
  · rw [Sizes.add, hf.size_eq, hg.size_eq, List.length_append, BitVec.ofNat_add]
  · rw [bytesOf_append, hcs, hds]
  · rw [Writes.andThen, Sizes.add, List.append_assoc, hw]
    simp only [hw', Option.map_some]
  · obtain ⟨hb, hb'⟩ := List.append_eq_nil_iff.mp hnil
    rw [Sizes.add, hf.silent hb, hg.silent hb']
    rfl

/-- Something behind its size. -/
theorem delimited {n : ℕ} (hf : Agrees f s b) (hn : n = b.length) (hkept : SizeKept b.length) :
    Agrees (Writes.delimited n f) (lenSize s.1, s.2) (delimit b) := by
  obtain ⟨cs, hcs, hsound, hw⟩ := hf.writes
  have hlen : n = (bytesOf cs).length := hcs ▸ hn
  refine ⟨?_, ⟨[.delimited n cs], ?_, ⟨⟨hlen, hsound⟩, trivial⟩, fun rest => ?_⟩, fun hnil => ?_⟩
  · rw [hf.size_eq, lenSize_eq hkept, delimit_length]
  · rw [bytesOf, bytesOf, List.append_nil, Chunk.bytes, hcs, hn, delimit]
  · rw [Writes.delimited, hw]
    rfl
  · exact absurd hnil (by simp [delimit, varintBytes_ne_nil])

theorem delimitedRaw {b : Bytes} (hkept : SizeKept b.length) :
    Agrees (emit (.delimited b.length [.raw b])) (lenSize (BitVec.ofNat 64 b.length), [])
      (delimit b) :=
  (raw b).delimited rfl hkept

theorem congr (hf : Agrees f s b) (hs : s = s') (hb : b = b') : Agrees f s' b' := hs ▸ hb ▸ hf

end Agrees

/-! ### Values whose sizes are found -/

/-- Whether the size of a value of the type is recorded in `size_arr`. -/
def Schema.recorded (S : Schema) : Ty → Bool
  | .message id => !(S.message id).base
  | .optional t => S.recorded t
  | _ => false

/-- Whether `pb_value_size` takes the size from `size_arr`; an optional does not pass `skip_next`
on. -/
def Schema.takesSize (S : Schema) : Bool → Ty → Bool
  | skipNext, .message id => skipNext && !(S.message id).base
  | _, .optional t => S.takesSize true t
  | _, _ => false

/-- Where a size is recorded, it is taken unless `skip_next` keeps it. -/
theorem Schema.takesSize_true {S : Schema} (t : Ty) : S.takesSize true t = S.recorded t := by
  induction t with
  | message id => exact Bool.true_and _
  | optional t ih => exact ih
  | _ => rfl

theorem Schema.takesSize_false {S : Schema} (t : Ty) :
    S.takesSize false t = true ↔ S.recorded t = true ∧ ¬ ∃ id, t = .message id := by
  cases t with
  | optional t =>
    rw [takesSize, takesSize_true]
    exact ⟨fun h => ⟨h, fun ⟨id, hid⟩ => Ty.noConfusion hid⟩, And.left⟩
  | message id => simp [takesSize]
  | _ => simp [takesSize, recorded]

/-- An entry of a map. -/
def entryBytes (S : Schema) (k m : Ty) (x y : Val) : Bytes :=
  tagged (keyOf 1 k) (payloads S x k false) ++ tagged (keyOf 2 m) (payloads S y m false)

/-- The size of a mapped value is looked at in front of the value, where a message without a
`base` has it in `size_arr`. For an optional it is taken there, and the value takes one of its own
unless it is empty; for a message it is left there, and an empty one does not take it. What has no
field is written as an empty one, and was not counted. -/
def MappedSized (S : Schema) (m : Ty) (y : Val) : Prop :=
  payloads S y m false ≠ [] ∧
    (S.recorded m = true → ((∃ id, m = .message id) ↔ payloads S y m false ≠ [delimit []]))

/-- The sizes are found: mapped values are as they should be, and a size is not so large that
some of its bits are lost, in a `uint32_t` or an `int`. The outermost message has no size. -/
inductive Sized (S : Schema) : Bool → Ty → Val → Prop
  | num (nested : Bool) (k : Num) (u : BitVec 64) : Sized S nested (.num k) (.num u)
  | string (nested : Bool) (s : Bytes) (hlen : SizeKept s.length) :
      Sized S nested .string (.str s)
  | message (nested : Bool) (id : ℕ) (vs : List Val)
      (hlen : nested = true → (if (S.message id).base then
          SizeKept (membersBytes S vs (S.message id).members).length
        else (membersBytes S vs (S.message id).members).length < 2 ^ 32))
      (hval : ∀ p ∈ (S.message id).members.zip vs, ∀ f, p.1.field p.2 = some f →
        Sized S true f.ty f.val)
      (honeof : ∀ p ∈ (S.message id).members.zip vs, ∀ f, p.1.field p.2 = some f →
        f.omitDefaultVal = false → (f.bytes S).length < 2 ^ 31) :
      Sized S nested (.message id) (.list vs)
  | sequence (nested : Bool) (t : Ty) (vs : List Val) (hlen : SizeKept (packedBytes t vs).length)
      (hvs : ∀ v ∈ vs, Sized S true t v) : Sized S nested (.sequence t) (.list vs)
  | map (nested : Bool) (k m : Ty) (es : List Val)
      (hk : ∀ x y, .pair x y ∈ es → Sized S true k x)
      (hm : ∀ x y, .pair x y ∈ es → Sized S true m y)
      (hlen : ∀ x y, .pair x y ∈ es → SizeKept (entryBytes S k m x y).length)
      (hmapped : ∀ x y, .pair x y ∈ es → MappedSized S m y) : Sized S nested (.map k m) (.list es)
  | none (nested : Bool) (t : Ty) : Sized S nested (.optional t) .none
  | some (nested : Bool) (t : Ty) (v : Val) (hv : Sized S true t v) :
      Sized S nested (.optional t) (.some v)

/-- What is behind the size of a value of the types that `pb_value_size` takes, or the number
itself. -/
def content (S : Schema) : Val → Ty → Bytes
  | .num u, .num k => k.bytes u
  | .str s, .string => s
  | .list vs, .message id => membersBytes S vs (S.message id).members
  | .list vs, .sequence t => packedBytes t vs
  | .some v, .optional t => content S v t
  | _, _ => []

/-- The only field of a value, by its content. -/
def wrap (t : Ty) (b : Bytes) : Bytes := if t.isLenprefixed then delimit b else b

theorem payloads_wrap {S : Schema} {t : Ty} {v : Val} (hv : S.HasTy t v)
    (ht : t.hasValueSize = true) (hne : payloads S v t false ≠ []) :
    payloads S v t false = [wrap t (content S v t)] := by
  induction hv with
  | num k u hu => cases k <;> rfl
  | string s => rfl
  | message id vs => rfl
  | sequence t vs hvs ih =>
    cases t with
    | num k =>
      have hpacked : (Ty.num k).isLenprefixed = false := by cases k <;> rfl
      rw [payloads, hpacked, if_neg Bool.false_ne_true] at hne ⊢
      split_ifs at hne ⊢ with hempty
      · exact absurd rfl hne
      · rfl
    | _ => cases ht
  | map => cases ht
  | none t => exact absurd rfl hne
  | some t v hv ih => exact ih ht hne

/-- What is behind an empty size is empty. -/
theorem content_eq_nil {S : Schema} {t : Ty} {v : Val} (hv : S.HasTy t v)
    (ht : t.hasValueSize = true) (hlen : t.isLenprefixed = true)
    (h : payloads S v t false = [delimit []]) : content S v t = [] := by
  have hwrap := payloads_wrap hv ht (by rw [h]; exact List.cons_ne_nil _ _)
  rw [h, wrap, if_pos hlen, List.singleton_inj] at hwrap
  have hlength := congrArg List.length hwrap
  rw [delimit_length, delimit_length, List.length_nil] at hlength
  have hle := varintSize_mono 9 (Nat.zero_le (content S v t).length)
  exact List.length_eq_zero_iff.mp (by omega)

theorem Schema.isLenprefixed_of_recorded {S : Schema} {t : Ty} (h : S.recorded t = true) :
    t.isLenprefixed = true := by
  induction t with
  | message id => rfl
  | optional t ih => exact ih h
  | _ => cases h

/-- A value without a size is a number. -/
theorem content_ne_nil {S : Schema} {t : Ty} {v : Val} (hv : S.HasTy t v)
    (hnum : t.isLenprefixed = false) (hne : payloads S v t false ≠ []) : content S v t ≠ [] := by
  induction hv with
  | num k u hu => exact k.bytes_ne_nil u
  | none t => exact absurd rfl hne
  | some t v hv ih => exact ih hnum hne
  | _ => cases hnum

/-! ### The passes agree -/

/-- The passes agree on a value, behind any key, and on its size alone. -/
structure ValueAgrees (S : Schema) (t : Ty) (v : Val) : Prop where
  agrees : ∀ key omitDefaultVal, key ≠ 0 →
    Agrees (toPbImpl S v t key omitDefaultVal)
      (pbKeyValueSize S v t (variantUint32SizeConstexpr key) omitDefaultVal)
      (tagged key (payloads S v t omitDefaultVal))
  valueSize : t.hasValueSize = true → payloads S v t false ≠ [] → ∀ skipNext keySize rest,
    pbValueSize S skipNext v t ((pbKeyValueSize S v t keySize false).2 ++ rest) =
      some (BitVec.ofNat 64 (content S v t).length,
        (pbKeyValueSize S v t keySize false).2.drop (S.takesSize skipNext t).toNat ++ rest)
  silent : t.hasValueSize = true → payloads S v t false ≠ [] → content S v t = [] →
    ∀ keySize, (pbKeyValueSize S v t keySize false).2.length = (S.recorded t).toNat
  kept : t.hasValueSize = true → t.isLenprefixed = true → payloads S v t false ≠ [] →
    SizeKept (content S v t).length

section Values

variable {S : Schema}

theorem constexpr_ne_zero (key : ℕ) : variantUint32SizeConstexpr key ≠ 0 := Nat.succ_ne_zero _

theorem valueAgrees_num {k : Num} {u : BitVec 64} (hu : k.cast u = u) :
    ValueAgrees S (.num k) (.num u) where
  agrees key omitDefaultVal hkey := by
    rw [toPbImpl, pbKeyValueSize, payloads, numericSize]
    split_ifs with homit
    · exact Agrees.done
    · refine ((Agrees.raw (serializeVarintU32 key)).andThen (Agrees.raw (k.bytes u))).congr ?_ ?_
      · rw [Sizes.add, serializeVarintU32_length, Num.size_eq hu]
        rfl
      · simp [tagged]
  valueSize _ _ _ _ _ := by
    rw [pbValueSize, numericSize, Bool.false_and, if_neg Bool.false_ne_true, Num.size_eq hu]
    simp [pbKeyValueSize, content]
  silent _ _ _ _ := rfl
  kept _ hlen := by cases k <;> cases hlen

theorem valueAgrees_string {s : Bytes} (hlen : SizeKept s.length) :
    ValueAgrees S .string (.str s) where
  agrees key omitDefaultVal hkey := by
    rw [toPbImpl, pbKeyValueSize, payloads, strSize]
    split_ifs with homit hzero
    · exact Agrees.done
    · exact absurd hzero (constexpr_ne_zero key)
    · refine ((Agrees.raw (serializeVarintU32 key)).andThen (Agrees.delimitedRaw hlen)).congr ?_ ?_
      · rw [Sizes.add, serializeVarintU32_length, lenSize, BitVec.add_assoc,
          BitVec.setWidth_ofNat_of_le (by decide)]
        rfl
      · simp [tagged]
  valueSize _ _ _ _ _ := by
    rw [pbValueSize]
    simp [pbKeyValueSize, content, strSize]
  silent _ _ _ _ := rfl
  kept _ _ _ := hlen

/-- An `int` holds the size of a `oneof`. -/
theorem oneofSize_eq {a : Sizes} {n : ℕ} (ha : a.1 = BitVec.ofNat 64 n) (h : n < 2 ^ 31) :
    oneofSize a = a := by
  have hmsb : (BitVec.ofNat 32 n).msb = false := by
    rw [BitVec.msb_eq_decide, BitVec.toNat_ofNat, Nat.mod_eq_of_lt (h.trans (by decide))]
    simpa using h
  refine Prod.ext ?_ rfl
  rw [oneofSize, ha, BitVec.setWidth_ofNat_of_le (by decide),
    BitVec.signExtend_eq_setWidth_of_msb_false hmsb, BitVec.setWidth_ofNat_of_le_of_lt (by decide)]
  exact h.trans (by decide)

/-- The field of a member. -/
theorem agrees_field {f : Field} (hf : ValueAgrees S f.ty f.val) (hkey : f.key ≠ 0)
    (honeof : f.omitDefaultVal = false → (f.bytes S).length < 2 ^ 31) :
    Agrees (f.write S) (f.size S) (f.bytes S) := by
  have h := hf.agrees f.key f.omitDefaultVal hkey
  refine h.congr ?_ rfl
  rw [Field.size]
  split_ifs with homit
  · rfl
  · exact (oneofSize_eq h.size_eq (honeof (Bool.eq_false_iff.mpr homit))).symm

theorem agrees_members {ms : List Member} {vs : List Val} (hlen : ms.length = vs.length)
    (h : ∀ p ∈ ms.zip vs, ∀ f, p.1.field p.2 = some f →
      Agrees (f.write S) (f.size S) (f.bytes S)) :
    Agrees (toPbMembers S vs ms) (membersSize S vs ms) (membersBytes S vs ms) := by
  induction ms generalizing vs with
  | nil =>
    obtain rfl : vs = [] := List.length_eq_zero_iff.mp hlen.symm
    exact Agrees.done
  | cons m ms ih =>
    match vs, hlen with
    | v :: vs, hlen =>
      rw [toPbMembers_cons, membersSize_cons, membersBytes_cons]
      refine Agrees.andThen ?_ (ih (Nat.succ.inj hlen) fun p hp => h p (by simp [hp]))
      cases hf : m.field v with
      | none => exact Agrees.done
      | some f => exact h (m, v) (by simp) f hf

theorem agrees_items {t : Ty} {vs : List Val} (h : ∀ v ∈ vs, ValueAgrees S t v) {key : ℕ}
    (hkey : key ≠ 0) :
    Agrees (toPbItems S vs t key) (itemsSize S vs t (variantUint32SizeConstexpr key))
      (tagged key (itemsPayloads S vs t)) := by
  induction vs with
  | nil => exact Agrees.done
  | cons v vs ih =>
    rw [toPbItems, itemsSize, itemsPayloads, tagged_append]
    exact ((h v List.mem_cons_self).agrees key false hkey).andThen
      (ih fun w hw => h w (List.mem_cons_of_mem _ hw))

theorem packedSize_eq {k : Num} {vs : List Val} (h : ∀ v ∈ vs, S.HasTy (.num k) v) :
    packedSize (.num k) vs = BitVec.ofNat 64 (packedBytes (.num k) vs).length := by
  induction vs with
  | nil => rfl
  | cons v vs ih =>
    have hsize := ih fun w hw => h w (List.mem_cons_of_mem _ hw)
    cases h v List.mem_cons_self with
    | num _ u hu =>
      rw [packedSize_cons, packedBytes_cons, hsize, List.length_append, BitVec.ofNat_add,
        numericSize, Bool.false_and, if_neg Bool.false_ne_true, Num.size_eq hu]
      simp

theorem packedBytes_eq_nil {k : Num} {vs : List Val} (h : ∀ v ∈ vs, S.HasTy (.num k) v) :
    packedBytes (.num k) vs = [] ↔ vs = [] := by
  refine ⟨fun hnil => ?_, fun hnil => hnil ▸ rfl⟩
  cases vs with
  | nil => rfl
  | cons v vs =>
    cases h v List.mem_cons_self with
    | num _ u hu =>
      rw [packedBytes_cons, List.append_eq_nil_iff] at hnil
      exact absurd hnil.1 (k.bytes_ne_nil u)

theorem ofNat_eq_zero_iff {n : ℕ} (h : n < 2 ^ 64) : BitVec.ofNat 64 n = 0 ↔ n = 0 := by
  rw [← BitVec.toNat_inj, BitVec.toNat_ofNat, Nat.mod_eq_of_lt h]
  rfl

theorem valueAgrees_sequence {t : Ty} {vs : List Val} (haccepted : (Ty.sequence t).accepted = true)
    (hty : ∀ v ∈ vs, S.HasTy t v) (hlen : SizeKept (packedBytes t vs).length)
    (h : ∀ v ∈ vs, ValueAgrees S t v) : ValueAgrees S (.sequence t) (.list vs) := by
  cases hlenprefix : t.isLenprefixed with
  | true =>
    have hnum : t.isNum = false := by
      cases t with
      | num k => cases k <;> cases hlenprefix
      | _ => rfl
    refine ⟨fun key omitDefaultVal hkey => ?_, fun ht => ?_, fun ht => ?_, fun ht => ?_⟩
    · rw [toPbImpl, pbKeyValueSize, payloads, if_pos hlenprefix, if_pos hlenprefix,
        if_pos hlenprefix]
      exact agrees_items h hkey
    all_goals exact absurd (hnum.symm.trans ht) Bool.false_ne_true
  | false =>
    obtain ⟨k, rfl⟩ : ∃ k, t = .num k := by
      cases t <;> simp_all [Ty.accepted, Ty.isNum]
    have hsize := packedSize_eq hty
    have hnil := packedBytes_eq_nil hty
    refine ⟨fun key omitDefaultVal hkey => ?_, fun _ _ skipNext keySize rest => ?_,
      fun _ _ _ _ => ?_, fun _ _ _ => hlen⟩
    · rw [toPbImpl, pbKeyValueSize, payloads, hlenprefix]
      simp only [Bool.false_eq_true, if_false, hsize,
        ofNat_eq_zero_iff (hlen.lt.trans (by decide)), List.length_eq_zero_iff, hnil,
        List.isEmpty_iff]
      split_ifs with hvs
      · exact Agrees.done
      · have htoNat : (BitVec.ofNat 64 (packedBytes (.num k) vs).length).toNat =
            (packedBytes (.num k) vs).length :=
          Nat.mod_eq_of_lt (hlen.lt.trans (by decide))
        rw [htoNat]
        refine ((Agrees.raw (serializeVarintU32 key)).andThen (Agrees.delimitedRaw hlen)).congr
          ?_ ?_
        · rw [Sizes.add, serializeVarintU32_length]
          rfl
        · simp [tagged]
    · rw [pbValueSize, hsize, pbKeyValueSize, hlenprefix]
      simp [Schema.takesSize, content]
    · rw [pbKeyValueSize, hlenprefix]
      rfl

theorem toNat_ofNat_of_lt {n : ℕ} (h : n < 2 ^ 64) : (BitVec.ofNat 64 n).toNat = n :=
  Nat.mod_eq_of_lt h

/-- A message behind its size: nothing more is written for an empty one. -/
theorem agrees_body {w : Writes} {s : Sizes} {b : Bytes} (hw : Agrees w s b)
    (hkept : SizeKept b.length) :
    Agrees (if s.1 = 0 then emit (.delimited 0 []) else Writes.delimited s.1.toNat w)
      (if s.1 = 0 then 1 else lenSize s.1, s.2) (delimit b) := by
  have hlt : b.length < 2 ^ 64 := hkept.lt.trans (by decide)
  have hdelimited := hw.delimited rfl hkept
  rw [hw.size_eq] at hdelimited ⊢
  split_ifs with hzero
  · obtain rfl : b = [] := List.length_eq_zero_iff.mp ((ofNat_eq_zero_iff hlt).mp hzero)
    rw [hw.silent rfl]
    exact Agrees.done.delimited rfl hkept
  · rwa [toNat_ofNat_of_lt hlt]

theorem valueAgrees_message {id : ℕ} {vs : List Val}
    (hw : Agrees (toPbMembers S vs (S.message id).members)
      (membersSize S vs (S.message id).members) (membersBytes S vs (S.message id).members))
    (hlen : if (S.message id).base then SizeKept (membersBytes S vs (S.message id).members).length
      else (membersBytes S vs (S.message id).members).length < 2 ^ 32) :
    ValueAgrees S (.message id) (.list vs) := by
  have hkept : SizeKept (membersBytes S vs (S.message id).members).length := by
    split_ifs at hlen
    · exact hlen
    · exact SizeKept.of_lt hlen
  -- the entry of the message is its size
  have hentry : (S.message id).base = false → ∀ entry : BitVec 32,
      entry = (membersSize S vs (S.message id).members).1.setWidth 32 →
        entry.setWidth 64 = (membersSize S vs (S.message id).members).1 := by
    rintro hbase entry rfl
    rw [hbase, if_neg Bool.false_ne_true] at hlen
    rw [hw.size_eq, BitVec.setWidth_ofNat_of_le (by decide),
      BitVec.setWidth_ofNat_of_le_of_lt (by decide) hlen]
  refine ⟨fun key omitDefaultVal hkey => ?_, fun _ _ skipNext keySize rest => ?_,
    fun _ _ hnil keySize => ?_, fun _ _ _ => hkept⟩
  · have hfield := (Agrees.raw (serializeVarintU32 key)).andThen (agrees_body hw hkept)
    refine ⟨?_, ?_, fun hnil => ?_⟩
    · have hsize := hfield.size_eq
      rw [Sizes.add, serializeVarintU32_length] at hsize
      rw [pbKeyValueSize, payloads, tagged_cons, tagged_nil, List.append_nil]
      exact hsize
    · obtain ⟨cs, hcs, hsound, hwrites⟩ := hfield.writes
      refine ⟨cs, ?_, hsound, fun rest => ?_⟩
      · rw [payloads, tagged_cons, tagged_nil, List.append_nil, hcs]
      · rw [← hwrites rest, toPbImpl, pbKeyValueSize]
        cases hbase : (S.message id).base with
        | true =>
          simp only [pbValueSize, hbase, if_true]
          rfl
        | false =>
          simp only [pbValueSize, hbase, Bool.false_eq_true, if_false, if_true, List.cons_append,
            hentry hbase _ rfl]
          rfl
    · exact absurd hnil (by simp [payloads, tagged, delimit, varintBytes_ne_nil])
  · rw [pbKeyValueSize, content, ← hw.size_eq, Schema.takesSize]
    cases hbase : (S.message id).base with
    | true => simp [pbValueSize, hbase]
    | false =>
      simp only [pbValueSize, hbase, Bool.false_eq_true, if_false, List.cons_append,
        hentry hbase _ rfl, Bool.not_false, Bool.and_true]
      cases skipNext <;> rfl
  · rw [pbKeyValueSize, Schema.recorded, hw.silent hnil]
    cases (S.message id).base <;> rfl

/-- A member of an entry, with the sizes that are left when its own has been looked at: an empty
one is written without a look at it. -/
theorem agrees_encodePairValue {m : Ty} {y : Val} (h : ValueAgrees S m y) (hy : S.HasTy m y)
    (hm : m.hasValueSize = true) (hmapped : MappedSized S m y)
    (hlt : (content S y m).length < 2 ^ 64) {key : ℕ} (hkey : key ≠ 0) :
    Agrees (encodePairValue key (BitVec.ofNat 64 (content S y m).length)
        (toPbImpl S y m key false))
      ((pbKeyValueSize S y m (variantUint32SizeConstexpr key) false).1,
        (pbKeyValueSize S y m (variantUint32SizeConstexpr key) false).2.drop
          (S.takesSize false m).toNat)
      (tagged key (payloads S y m false)) := by
  obtain ⟨hone, hrecorded⟩ := hmapped
  have hagrees := h.agrees key false hkey
  rw [encodePairValue]
  split_ifs with hzero
  · have hnil : content S y m = [] :=
      List.length_eq_zero_iff.mp ((ofNat_eq_zero_iff hlt).mp hzero)
    have hlen : m.isLenprefixed = true := by
      by_contra hnum
      exact content_ne_nil hy (Bool.eq_false_iff.mpr hnum) hone hnil
    have hfield : payloads S y m false = [delimit []] := by
      rw [payloads_wrap hy hm hone, wrap, if_pos hlen, hnil]
    -- what has been recorded is the size alone, and it has been taken
    have hown : (pbKeyValueSize S y m (variantUint32SizeConstexpr key) false).2.drop
        (S.takesSize false m).toNat = [] := by
      rw [List.drop_eq_nil_iff, h.silent hm hone hnil]
      cases hr : S.recorded m with
      | false => exact Nat.zero_le _
      | true =>
        have htaken : S.takesSize false m = true :=
          (Schema.takesSize_false m).mpr ⟨hr, fun hid => (hrecorded hr).mp hid hfield⟩
        rw [htaken]
    have hwrite : Agrees ((emit (.raw (serializeVarintU32 key))).andThen (emit (.delimited 0 [])))
        _ _ :=
      (Agrees.raw (serializeVarintU32 key)).andThen
        (Agrees.done.delimited rfl (SizeKept.of_lt (by decide)))
    obtain ⟨cs, hcs, hsound, hw⟩ := hwrite.writes
    refine ⟨hagrees.size_eq, ⟨cs, ?_, hsound, fun rest => ?_⟩, fun _ => hown⟩
    · rw [hcs, hfield, tagged_cons, tagged_nil, List.append_nil]
    · rw [hown]
      exact hw rest
  · have hkeeps : S.takesSize false m = false := by
      rw [Bool.eq_false_iff, ne_eq, Schema.takesSize_false]
      rintro ⟨hr, hid⟩
      have hfield : payloads S y m false = [delimit []] := not_not.mp (mt (hrecorded hr).mpr hid)
      have hnil : content S y m = [] := content_eq_nil hy hm
        (Schema.isLenprefixed_of_recorded hr) hfield
      exact hzero (by rw [hnil]; rfl)
    rw [hkeeps]
    exact hagrees

/-- A key of a map records no size. -/
theorem key_hasValueSize {k : Ty} {x : Val} (hk : (k.isNum || k = .string) = true)
    (hx : S.HasTy k x) :
    k.hasValueSize = true ∧ S.recorded k = false ∧ payloads S x k false ≠ [] ∧
      ∀ keySize, (pbKeyValueSize S x k keySize false).2 = [] := by
  cases hx with
  | num k u hu => exact ⟨rfl, rfl, by simp [payloads], fun _ => rfl⟩
  | string s => exact ⟨rfl, rfl, by simp [payloads], fun _ => rfl⟩
  | _ => cases hk

/-- The key of an entry. -/
theorem agrees_key {k : Ty} {x : Val} (hk : (k.isNum || k = .string) = true)
    (hx : S.HasTy k x) (h : ValueAgrees S k x) (hlt : (content S x k).length < 2 ^ 64) :
    Agrees (encodePairValue (keyOf 1 k) (BitVec.ofNat 64 (content S x k).length)
        (toPbImpl S x k (keyOf 1 k) false))
      ((pbKeyValueSize S x k 1 false).1, []) (tagged (keyOf 1 k) (payloads S x k false)) := by
  obtain ⟨hsize, hrecorded, hone, hown⟩ := key_hasValueSize hk hx
  have hmapped : MappedSized S k x :=
    ⟨hone, fun hr => absurd hr (by rw [hrecorded]; exact Bool.false_ne_true)⟩
  have hkey := agrees_encodePairValue h hx hsize hmapped hlt (keyOf_ne_zero Nat.one_ne_zero k)
  rwa [constexpr_entry (by decide), hown, List.drop_nil] at hkey

theorem pbValueSize_key {k : Ty} {x : Val} (hk : (k.isNum || k = .string) = true)
    (hx : S.HasTy k x) (h : ValueAgrees S k x) (ptr : Ptr) :
    pbValueSize S true x k ptr = some (BitVec.ofNat 64 (content S x k).length, ptr) := by
  obtain ⟨hsize, -, hone, hown⟩ := key_hasValueSize hk hx
  have hvalue := h.valueSize hsize hone true 1 ptr
  rwa [hown, List.drop_nil, List.nil_append] at hvalue

theorem tagged_wrap_length (key : ℕ) (t : Ty) (b : Bytes) :
    (tagged key [wrap t b]).length = variantUint32SizeConstexpr key + b.length +
      (if t.isLenprefixed then varintSize 9 b.length else 0) := by
  rw [tagged_cons, tagged_nil, List.append_nil, List.length_append, serializeVarintU32_length, wrap]
  split_ifs
  · rw [delimit_length]
    omega
  · omega

/-- The length of an entry is found. -/
theorem pairLen_eq {k m : Ty} {x y : Val} (hx : S.HasTy k x) (hy : S.HasTy m y)
    (hk : k.hasValueSize = true) (hm : m.hasValueSize = true)
    (hkone : payloads S x k false ≠ []) (hmone : payloads S y m false ≠ [])
    (hkkept : k.isLenprefixed = true → SizeKept (content S x k).length)
    (hmkept : m.isLenprefixed = true → SizeKept (content S y m).length) :
    pairLen k m (BitVec.ofNat 64 (content S x k).length) (BitVec.ofNat 64 (content S y m).length) =
      BitVec.ofNat 64 (entryBytes S k m x y).length := by
  have hvarint : ∀ (t : Ty) (n : ℕ), (t.isLenprefixed = true → SizeKept n) →
      (if t.isLenprefixed then variantUint32Size ((BitVec.ofNat 64 n).setWidth 32) else 0) =
        BitVec.ofNat 64 (if t.isLenprefixed then varintSize 9 n else 0) := by
    intro t n hkept
    split_ifs with hlen
    · rw [variantUint32Size_eq, BitVec.setWidth_ofNat_of_le (by decide), BitVec.toNat_ofNat,
        hkept hlen]
    · rfl
  rw [pairLen, hvarint k _ hkkept, hvarint m _ hmkept, entryBytes, payloads_wrap hx hk hkone,
    payloads_wrap hy hm hmone, List.length_append, tagged_wrap_length, tagged_wrap_length]
  simp only [← BitVec.ofNat_add]
  congr 1
  omega

theorem content_length_le {t : Ty} (key : ℕ) (b : Bytes) :
    b.length ≤ (tagged key [wrap t b]).length := by
  rw [tagged_wrap_length]
  omega

/-- One entry of a map, behind its length. -/
theorem agrees_entry {k m : Ty} {x y : Val} (haccepted : (Ty.map k m).accepted = true)
    (hx : S.HasTy k x) (hy : S.HasTy m y) (hkagrees : ValueAgrees S k x)
    (hmagrees : ValueAgrees S m y) (hlen : SizeKept (entryBytes S k m x y).length)
    (hmapped : MappedSized S m y) :
    Agrees (Writes.delimited (pairLen k m (BitVec.ofNat 64 (content S x k).length)
        (BitVec.ofNat 64 (content S y m).length)).toNat
      ((encodePairValue (keyOf 1 k) (BitVec.ofNat 64 (content S x k).length)
          (toPbImpl S x k (keyOf 1 k) false)).andThen
        (encodePairValue (keyOf 2 m) (BitVec.ofNat 64 (content S y m).length)
          (toPbImpl S y m (keyOf 2 m) false))))
      (lenSize ((pbKeyValueSize S x k 1 false).add (pbKeyValueSize S y m 1 false)).1,
        (pbKeyValueSize S y m 1 false).2.drop (S.takesSize false m).toNat)
      (delimit (entryBytes S k m x y)) := by
  simp only [Ty.accepted, Bool.and_eq_true] at haccepted
  obtain ⟨⟨hkey, -⟩, hm⟩ := haccepted
  obtain ⟨hk, -, hkone, -⟩ := key_hasValueSize hkey hx
  have hmone := hmapped.1
  have hlt := hlen.lt
  have hshorter : (content S x k).length ≤ (entryBytes S k m x y).length ∧
      (content S y m).length ≤ (entryBytes S k m x y).length := by
    rw [entryBytes, payloads_wrap hx hk hkone, payloads_wrap hy hm hmone, List.length_append]
    exact ⟨(content_length_le _ _).trans (Nat.le_add_right _ _),
      (content_length_le _ _).trans (Nat.le_add_left _ _)⟩
  have hfirst := agrees_key hkey hx hkagrees (by omega)
  have hsecond := agrees_encodePairValue hmagrees hy hm hmapped (by omega)
    (keyOf_ne_zero (Nat.succ_ne_zero 1) m)
  rw [constexpr_entry (by decide)] at hsecond
  refine (hfirst.andThen hsecond).delimited ?_ hlen
  rw [pairLen_eq hx hy hk hm hkone hmone (fun h => hkagrees.kept hk h hkone)
    fun h => hmagrees.kept hm h hmone]
  exact toNat_ofNat_of_lt (hlt.trans (by decide))

theorem agrees_entries {k m : Ty} {es : List (Val × Val)}
    (haccepted : (Ty.map k m).accepted = true) (hk : ∀ e ∈ es, S.HasTy k e.1)
    (hm : ∀ e ∈ es, S.HasTy m e.2) (hkagrees : ∀ e ∈ es, ValueAgrees S k e.1)
    (hmagrees : ∀ e ∈ es, ValueAgrees S m e.2)
    (hlen : ∀ e ∈ es, SizeKept (entryBytes S k m e.1 e.2).length)
    (hmapped : ∀ e ∈ es, MappedSized S m e.2) (key : ℕ) :
    Agrees (toPbEntries S (es.map fun e => .pair e.1 e.2) k m key)
      (entriesSize S (es.map fun e => .pair e.1 e.2) k m (variantUint32SizeConstexpr key))
      (tagged key (entriesPayloads S (es.map fun e => .pair e.1 e.2) k m)) := by
  induction es with
  | nil => exact Agrees.done
  | cons e es ih =>
    obtain ⟨x, y⟩ := e
    have hx := hk (x, y) List.mem_cons_self
    have hy := hm (x, y) List.mem_cons_self
    have hxagrees := hkagrees (x, y) List.mem_cons_self
    have hyagrees := hmagrees (x, y) List.mem_cons_self
    have hone := hmapped (x, y) List.mem_cons_self
    have hentry := agrees_entry haccepted hx hy hxagrees hyagrees
      (hlen (x, y) List.mem_cons_self) hone
    have hentries := ih (fun e he => hk e (List.mem_cons_of_mem _ he))
      (fun e he => hm e (List.mem_cons_of_mem _ he))
      (fun e he => hkagrees e (List.mem_cons_of_mem _ he))
      (fun e he => hmagrees e (List.mem_cons_of_mem _ he))
      (fun e he => hlen e (List.mem_cons_of_mem _ he))
      (fun e he => hmapped e (List.mem_cons_of_mem _ he))
    have hall := (Agrees.raw (serializeVarintU32 key)).andThen (hentry.andThen hentries)
    simp only [Ty.accepted, Bool.and_eq_true] at haccepted
    obtain ⟨-, -, -, hkown⟩ := key_hasValueSize haccepted.1.1 hx
    have hkSize := pbValueSize_key haccepted.1.1 hx hxagrees
    have hmSize := hyagrees.valueSize haccepted.2 hone.1 false 1
    rw [List.map_cons, entriesPayloads, entriesSize, tagged_cons]
    refine ⟨?_, ?_, fun hnil => ?_⟩
    · have hsize := hall.size_eq
      simp only [Sizes.add, serializeVarintU32_length, entryBytes] at hsize ⊢
      rw [BitVec.add_assoc, hsize, List.append_assoc]
    · obtain ⟨cs, hcs, hsound, hw⟩ := hall.writes
      refine ⟨cs, ?_, hsound, fun rest => ?_⟩
      · rw [hcs, entryBytes, List.append_assoc]
      · have hrest := hw rest
        simp only [Sizes.add, hkown, List.nil_append, List.append_assoc] at hrest ⊢
        rw [toPbEntries]
        simp only [hkSize, hmSize]
        exact hrest
    · exact absurd hnil (by simp [delimit, varintBytes_ne_nil])

theorem valueAgrees_map {k m : Ty} {es : List (Val × Val)}
    (haccepted : (Ty.map k m).accepted = true) (hk : ∀ e ∈ es, S.HasTy k e.1)
    (hm : ∀ e ∈ es, S.HasTy m e.2) (hkagrees : ∀ e ∈ es, ValueAgrees S k e.1)
    (hmagrees : ∀ e ∈ es, ValueAgrees S m e.2)
    (hlen : ∀ e ∈ es, SizeKept (entryBytes S k m e.1 e.2).length)
    (hmapped : ∀ e ∈ es, MappedSized S m e.2) :
    ValueAgrees S (.map k m) (.list (es.map fun e => .pair e.1 e.2)) where
  agrees key _ _ := by
    rw [toPbImpl, pbKeyValueSize, payloads]
    exact agrees_entries haccepted hk hm hkagrees hmagrees hlen hmapped key
  valueSize ht := nomatch ht
  silent ht := nomatch ht
  kept ht := nomatch ht

theorem valueAgrees_none (t : Ty) : ValueAgrees S (.optional t) .none where
  agrees _ _ _ := Agrees.done
  valueSize _ hone := absurd rfl hone
  silent _ hone := absurd rfl hone
  kept _ _ hone := absurd rfl hone

theorem valueAgrees_some {t : Ty} {v : Val} (h : ValueAgrees S t v) :
    ValueAgrees S (.optional t) (.some v) where
  agrees := h.agrees
  valueSize ht hone _ keySize rest := by
    rw [pbValueSize]
    exact h.valueSize ht hone true keySize rest
  silent := h.silent
  kept := h.kept

end Values

/-! ### Schemas and whole messages -/

/-- A schema of protobuf: the field numbers of a message differ and are in their range, its types
compile, and its default constructor makes a value of it. -/
structure Schema.Valid (S : Schema) : Prop where
  nodup : ∀ id, ((S.message id).getMembers.map Prod.fst).Nodup
  fieldNo : ∀ id, ∀ c ∈ (S.message id).getMembers, 1 ≤ c.1 ∧ c.1 < 2 ^ 29
  accepted : ∀ id, ∀ c ∈ (S.message id).getMembers, c.2.ty.accepted = true
  init : ∀ id, S.HasTy (.message id) (.list (S.message id).init)

/-- The alternative that a value of a member is. -/
def Member.alt (m : Member) (v : Val) : Option ℕ :=
  match m.ty, v with
  | .oneof _, .alt a _ => some a
  | _, _ => none

theorem MessageDef.mem_getMembers {d : MessageDef} {i : ℕ} {m : Member} {v : Val} {f : Field}
    (hm : d.members[i]? = some m) (hf : m.field v = some f) :
    (f.fieldNo, ⟨i, m.alt v, f.ty⟩) ∈ d.getMembers := by
  rw [getMembers, List.mem_flatten]
  refine ⟨m.slots i, ?_, ?_⟩
  · rw [List.mem_iff_getElem?]
    exact ⟨i, by rw [List.getElem?_mapIdx, hm]; rfl⟩
  · obtain ⟨n, ty⟩ := m
    cases ty with
    | plain t =>
      obtain rfl := Option.some.inj hf
      exact List.mem_singleton.mpr rfl
    | oneof ts =>
      cases v with
      | alt a v =>
        obtain ⟨t, ht, rfl⟩ := Option.map_eq_some_iff.mp hf
        rw [Member.slots, List.mem_iff_getElem?]
        exact ⟨a, by rw [List.getElem?_mapIdx, ht]; rfl⟩
      | _ => cases hf

section Messages

variable {S : Schema}

theorem Schema.Valid.of_field (hS : S.Valid) {id : ℕ} {p : Member × Val} {vs : List Val}
    {f : Field} (hp : p ∈ (S.message id).members.zip vs) (hf : p.1.field p.2 = some f) :
    (1 ≤ f.fieldNo ∧ f.fieldNo < 2 ^ 29) ∧ f.ty.accepted = true := by
  obtain ⟨i, hi⟩ := List.mem_iff_getElem?.mp (List.of_mem_zip hp).1
  have hmem := MessageDef.mem_getMembers hi hf
  exact ⟨hS.fieldNo id _ hmem, hS.accepted id _ hmem⟩

/-- The members of a message, when the passes agree on each. -/
theorem agrees_message (hS : S.Valid) {id : ℕ} {vs : List Val}
    (hlen : (S.message id).members.length = vs.length)
    (hval : ∀ p ∈ (S.message id).members.zip vs, ∀ f, p.1.field p.2 = some f →
      ValueAgrees S f.ty f.val)
    (honeof : ∀ p ∈ (S.message id).members.zip vs, ∀ f, p.1.field p.2 = some f →
      f.omitDefaultVal = false → (f.bytes S).length < 2 ^ 31) :
    Agrees (toPbMembers S vs (S.message id).members) (membersSize S vs (S.message id).members)
      (membersBytes S vs (S.message id).members) := by
  refine agrees_members hlen fun p hp f hf => ?_
  have hkey : f.key ≠ 0 :=
    keyOf_ne_zero (Nat.one_le_iff_ne_zero.mp (hS.of_field hp hf).1.1) f.ty
  exact agrees_field (hval p hp f hf) hkey (honeof p hp f hf)

theorem accepted_of_map {k m : Ty} (h : (Ty.map k m).accepted = true) :
    k.accepted = true ∧ m.accepted = true := by
  simp only [Ty.accepted, Bool.and_eq_true] at h
  refine ⟨?_, h.1.2⟩
  cases k <;> simp_all [Ty.accepted, Ty.isNum]

/-- The passes agree on a value whose sizes are found. -/
theorem agrees_of_sized (hS : S.Valid) {t : Ty} {v : Val} (hv : S.HasTy t v)
    (ht : t.accepted = true) (hs : Sized S true t v) : ValueAgrees S t v := by
  induction hv with
  | num k u hu => exact valueAgrees_num hu
  | string s =>
    cases hs with
    | string _ _ hlen => exact valueAgrees_string hlen
  | message id vs hlen hfield hty ih =>
    cases hs with
    | message _ _ _ hsize hval honeof =>
      have hvals := fun p hp f hf => ih p hp f hf (hS.of_field hp hf).2 (hval p hp f hf)
      exact valueAgrees_message (agrees_message hS hlen hvals honeof) (hsize rfl)
  | sequence t vs hty ih =>
    cases hs with
    | sequence _ _ _ hlen hvs =>
      have haccepted : t.accepted = true := by
        simp only [Ty.accepted, Bool.and_eq_true] at ht
        exact ht.1
      exact valueAgrees_sequence ht hty hlen fun v hv => ih v hv haccepted (hvs v hv)
  | map k m es hk hm hkeys ihk ihm =>
    cases hs with
    | map _ _ _ _ hksized hmsized hlen hmapped =>
      have hpair : ∀ e ∈ es, Val.pair e.1 e.2 ∈ es.map fun e => Val.pair e.1 e.2 :=
        fun e he => List.mem_map_of_mem he
      have haccepted := accepted_of_map ht
      exact valueAgrees_map ht hk hm
        (fun e he => ihk e he haccepted.1 (hksized _ _ (hpair e he)))
        (fun e he => ihm e he haccepted.2 (hmsized _ _ (hpair e he)))
        (fun e he => hlen _ _ (hpair e he)) fun e he => hmapped _ _ (hpair e he)
  | none t => exact valueAgrees_none t
  | some t v hv ih =>
    cases hs with
    | some _ _ _ hv => exact valueAgrees_some (ih ht hv)

/-- The passes agree on a message that is not inside another. -/
theorem agrees_top (hS : S.Valid) {id : ℕ} {vs : List Val} {nested : Bool}
    (hv : S.HasTy (.message id) (.list vs)) (hs : Sized S nested (.message id) (.list vs)) :
    Agrees (toPbMembers S vs (S.message id).members) (membersSize S vs (S.message id).members)
      (membersBytes S vs (S.message id).members) := by
  cases hv with
  | message _ _ hlen hfield hty =>
    cases hs with
    | message _ _ _ hsize hval honeof =>
      have hvals := fun p hp f hf =>
        agrees_of_sized hS (hty p hp f hf) (hS.of_field hp hf).2 (hval p hp f hf)
      exact agrees_message hS hlen hvals honeof

/-- The output of a message whose sizes are found. -/
theorem toPb_eq (hS : S.Valid) {id : ℕ} {vs : List Val} (hv : S.HasTy (.message id) (.list vs))
    (hs : Sized S false (.message id) (.list vs)) :
    toPb S id (.list vs) = some (membersBytes S vs (S.message id).members) := by
  have hagrees := agrees_top hS hv hs
  obtain ⟨cs, hcs, -, hw⟩ := hagrees.writes
  have hrun := hw []
  rw [List.append_nil] at hrun
  rw [toPb]
  simp only [Val.items, hrun, hcs, hagrees.size_eq, if_true]

end Messages

end Yalantinglibs.Iguana.Pb
