import Yalantinglibs.Iguana.PbAgreement

/-!
# Messages of struct_pb, written and read back

## Main definitions

* `KeyKept` — a key whose bytes are its varint
* `Kept` — the values that are read back into an object
* `RoundTrips` — `from_pb` of `to_pb` gives the value

## Main results

* `reads_of_kept` — the fields of such a value are read back
* `roundTrips_of_kept` — and so is a message
-/

set_option autoImplicit false

namespace Yalantinglibs.Iguana.Pb

open ByteCodec

/-! ### Values that are read back -/

/-- The bytes of the key are its varint: each but the last has the bit of the key there that says
so. -/
def KeyKept (key : ℕ) : Prop := serializeVarintU32 key = varintBytes 9 key

/-- What a field is read into. -/
def Slot.into (S : Schema) (c : Slot) (vs : List Val) : Val :=
  match c.alt with
  | none => vs.getD c.member .none
  | some _ => S.fresh c.ty

/-- The value of a type is read back into an object. What is written for it is one field, where
it is an item or in an optional; a sequence or a map is read into an empty one. Each member of a
message is written, with a key that is kept, or is in the object. -/
inductive Kept (lib : Resize) (S : Schema) : Bool → Ty → Val → Val → Prop
  | num (nested : Bool) (k : Num) (d : Val) (u : BitVec 64) : Kept lib S nested (.num k) d (.num u)
  | string (nested : Bool) (d : Val) (s : Bytes) (hlen : (delimit s).length < 2 ^ 64) :
      Kept lib S nested .string d (.str s)
  | message (nested : Bool) (id : ℕ) (d : Val) (vs : List Val)
      (hlen : nested = true → (membersBytes S vs (S.message id).members).length < 2 ^ 32)
      (hval : ∀ (i : ℕ) (m : Member) (v : Val) (f : Field),
        (S.message id).members[i]? = some m → vs[i]? = some v →
        m.field v = some f → f.payloads S ≠ [] →
        Kept lib S true f.ty ((⟨i, m.alt v, f.ty⟩ : Slot).into S d.items) f.val)
      (hkey : ∀ (i : ℕ) (m : Member) (v : Val) (f : Field),
        (S.message id).members[i]? = some m → vs[i]? = some v →
        m.field v = some f → f.payloads S ≠ [] → KeyKept f.key)
      (hsilent : ∀ (i : ℕ) (m : Member) (v : Val) (f : Field),
        (S.message id).members[i]? = some m → vs[i]? = some v →
        m.field v = some f → f.payloads S = [] → d.items[i]? = some v) :
      Kept lib S nested (.message id) d (.list vs)
  | items (nested : Bool) (t : Ty) (d : Val) (vs : List Val) (ht : t.isLenprefixed = true)
      (hd : d.items = []) (hone : ∀ v ∈ vs, (payloads S v t false).length = 1)
      (hvs : ∀ v ∈ vs, Kept lib S true t (S.fresh t) v) :
      Kept lib S nested (.sequence t) d (.list vs)
  | packed (nested : Bool) (t : Ty) (d : Val) (vs : List Val) (ht : t.isLenprefixed = false)
      (hd : d.items = []) (hlen : (packedBytes t vs).length < 2 ^ 32)
      (hroom : vs ≠ [] → t.fixedWidth ≠ none → lib = .items) :
      Kept lib S nested (.sequence t) d (.list vs)
  | map (nested : Bool) (k m : Ty) (d : Val) (es : List Val) (hd : d.items = [])
      (hk : ∀ x y, .pair x y ∈ es → Kept lib S true k (S.fresh k) x)
      (hm : ∀ x y, .pair x y ∈ es → Kept lib S true m (S.fresh m) y)
      (hone : ∀ x y, .pair x y ∈ es → (payloads S y m false).length = 1) :
      Kept lib S nested (.map k m) d (.list es)
  | some (nested : Bool) (t : Ty) (d v : Val) (hone : (payloads S v t false).length = 1)
      (hv : Kept lib S true t (S.fresh t) v) : Kept lib S nested (.optional t) d (.some v)

/-- `from_pb`, into a message that was default-constructed, of what `to_pb` makes of a message
gives that. -/
def RoundTrips (lib : Resize) (S : Schema) (id : ℕ) (v : Val) : Prop :=
  ∃ b, toPb S id v = some b ∧ fromPb lib S (b.length + 1) id (S.fresh (.message id)) b = .ok v

/-! ### Numbers, sizes and texts -/

theorem decodeVarint_varintBytes {n : ℕ} (h : n < 2 ^ 64) (rest : Bytes) :
    decodeVarint (varintBytes 9 n ++ rest) = .ok (n, rest) := by
  have hne : varintBytes 9 n ++ rest ≠ [] := by simp [varintBytes_ne_nil]
  rw [decodeVarint, if_neg hne, readVarint_varintBytes h]

theorem decodeVarint_key {key : ℕ} (hkey : KeyKept key) (h : key < 2 ^ 32) (rest : Bytes) :
    decodeVarint (serializeVarintU32 key ++ rest) = .ok (key, rest) := by
  rw [hkey]
  exact decodeVarint_varintBytes (h.trans (by decide)) rest

/-- The size of an entry is only compared. -/
theorem decodeSize_entry {b : Bytes} (h : b.length < 2 ^ 64) (rest : Bytes) :
    decodeSize (delimit b ++ rest) = .ok (b.length % 2 ^ 32, b ++ rest) := by
  have hle : b.length % 2 ^ 32 ≤ (b ++ rest).length :=
    (Nat.mod_le _ _).trans (by simp)
  rw [decodeSize, delimit, List.append_assoc, decodeVarint_varintBytes h]
  simp only [if_neg (Nat.not_lt.mpr hle)]

theorem decodeSize_delimit {b : Bytes} (h : b.length < 2 ^ 32) (rest : Bytes) :
    decodeSize (delimit b ++ rest) = .ok (b.length, b ++ rest) := by
  rw [decodeSize_entry (h.trans (by decide)), Nat.mod_eq_of_lt h]

/-- The bytes of a number of a fixed width are those it has. -/
theorem Num.ofLE_bytes {k : Num} {u : BitVec 64} (hwire : k.wireType ≠ .varint)
    (hu : k.cast u = u) : BitVec.ofNat 64 (ofLE (k.bytes u)) = u := by
  have hlt : u.toNat < 256 ^ k.width := by
    have hwide : u.toNat < 256 ^ 8 := u.isLt
    have hnarrow : extend 32 false u = u → u.toNat < 256 ^ 4 := fun h =>
      extend_toNat_lt (w := 32) (by decide) (by decide) h rfl
    cases k <;> first | exact absurd rfl hwire | exact hwide | exact hnarrow hu
  rw [bytes_of_fixed hwire, ofLE_toLE hlt, BitVec.ofNat_toNat, BitVec.setWidth_eq]

theorem decodeNum_bytes {k : Num} {u : BitVec 64} (hu : k.cast u = u) (rest : Bytes) :
    decodeNum k (k.bytes u ++ rest) = .ok (.num u, rest) := by
  rw [decodeNum]
  by_cases hwire : k.wireType = .varint
  · rw [hwire, Num.bytes_of_varint hwire]
    simp only [decodeVarint_varintBytes (k.word_lt u), Num.ofWord_word hu]
  · have hlen : (k.bytes u).length = k.width := by rw [Num.bytes_of_fixed hwire, toLE_length]
    have hread : (if (k.bytes u ++ rest).length < k.width then (Except.error .throws : Read Val)
        else .ok (.num (BitVec.ofNat 64 (ofLE ((k.bytes u ++ rest).take k.width))),
          (k.bytes u ++ rest).drop k.width)) = .ok (.num u, rest) := by
      rw [if_neg (by rw [List.length_append]; omega), ← hlen, List.take_left, List.drop_left,
        Num.ofLE_bytes hwire hu]
    cases hcase : k.wireType with
    | varint => exact absurd hcase hwire
    | _ => exact hread

theorem decodeString_delimit {s : Bytes} (h : (delimit s).length < 2 ^ 64) (rest : Bytes) :
    decodeString (delimit s ++ rest) = .ok (.str s, rest) := by
  have hlen := h
  rw [delimit_length] at hlen
  rw [decodeString, delimit, List.append_assoc, decodeVarint_varintBytes (by omega)]
  simp only [List.length_append, varintBytes_length]
  rw [if_neg (by omega), if_neg (by omega), List.take_left, List.drop_left]

/-! ### Values -/

section Values

variable {lib : Resize} {S : Schema}

/-- The fields of a value, without the first key: that is read by the message. -/
def joined (key : ℕ) : List Bytes → Bytes
  | [] => []
  | p :: ps => p ++ tagged key ps

theorem tagged_eq_joined {key : ℕ} {ps : List Bytes} (h : ps ≠ []) :
    tagged key ps = serializeVarintU32 key ++ joined key ps := by
  cases ps with
  | nil => exact absurd rfl h
  | cons p ps => rw [tagged_cons, joined, List.append_assoc]

/-- What comes behind a field: nothing, or the key of another. -/
def Ends (fieldNo : ℕ) (rest : Bytes) : Prop :=
  rest = [] ∨ ∃ key rest', decodeVarint rest = .ok (key, rest') ∧
    key % 2 ^ 32 / 8 ≠ fieldNo ∧ key % 2 ^ 32 / 8 ≠ 0

theorem Ends.zero {fieldNo : ℕ} {rest : Bytes} (h : Ends fieldNo rest) : Ends 0 rest := by
  rcases h with h | ⟨key, rest', hread, -, hne⟩
  · exact .inl h
  · exact .inr ⟨key, rest', hread, hne, hne⟩

/-- A key that is kept, of a field number. -/
structure KeyOf (key fieldNo : ℕ) : Prop where
  kept : KeyKept key
  lt : key < 2 ^ 32
  div : key / 8 = fieldNo
  pos : fieldNo ≠ 0

theorem KeyOf.decodeVarint {key fieldNo : ℕ} (h : KeyOf key fieldNo) (rest : Bytes) :
    decodeVarint (serializeVarintU32 key ++ rest) = .ok (key, rest) :=
  decodeVarint_key h.kept h.lt rest

theorem KeyOf.ends_zero {key fieldNo : ℕ} (h : KeyOf key fieldNo) (rest : Bytes) :
    Ends 0 (serializeVarintU32 key ++ rest) := by
  have hne : key % 2 ^ 32 / 8 ≠ 0 := by
    rw [Nat.mod_eq_of_lt h.lt, h.div]
    exact h.pos
  exact .inr ⟨key, rest, h.decodeVarint rest, hne, hne⟩

/-- The fields of a value are read back into an object, behind the first key. -/
def Reads (lib : Resize) (S : Schema) (t : Ty) (d v : Val) : Prop :=
  ∀ depth fieldNo key omitDefaultVal rest,
    payloads S v t omitDefaultVal ≠ [] →
    (payloads S v t omitDefaultVal).length = 1 ∨ KeyOf key fieldNo → Ends fieldNo rest →
    (joined key (payloads S v t omitDefaultVal)).length < depth →
    fromPbImpl lib S (fromPb lib S depth) t d fieldNo
      (joined key (payloads S v t omitDefaultVal) ++ rest) = .ok (v, rest)

/-- A value that is one field is read back with any key. -/
theorem Reads.one {t : Ty} {v : Val} {p : Bytes} (h : Reads lib S t (S.fresh t) v)
    (hp : payloads S v t false = [p]) {depth : ℕ} {rest : Bytes} (hrest : Ends 0 rest)
    (hlen : p.length < depth) :
    fromPbImpl lib S (fromPb lib S depth) t (S.fresh t) 0 (p ++ rest) = .ok (v, rest) := by
  have hjoined : joined 0 (payloads S v t false) = p := by
    rw [hp, joined, tagged_nil, List.append_nil]
  have hread := h depth 0 0 false rest (by rw [hp]; exact List.cons_ne_nil _ _)
    (.inl (by rw [hp]; rfl)) hrest (by rw [hjoined]; exact hlen)
  rwa [hjoined] at hread

theorem reads_num {k : Num} {d : Val} {u : BitVec 64} (hu : k.cast u = u) :
    Reads lib S (.num k) d (.num u) := by
  intro depth fieldNo key omitDefaultVal rest hne _ _ _
  rw [payloads] at hne ⊢
  split_ifs at hne ⊢ with homit
  · exact absurd rfl hne
  · rw [joined, tagged_nil, List.append_nil]
    exact decodeNum_bytes hu rest

theorem reads_string {d : Val} {s : Bytes} (hlen : (delimit s).length < 2 ^ 64) :
    Reads lib S .string d (.str s) := by
  intro depth fieldNo key omitDefaultVal rest hne _ _ _
  rw [payloads] at hne ⊢
  split_ifs at hne ⊢ with homit
  · exact absurd rfl hne
  · rw [joined, tagged_nil, List.append_nil]
    exact decodeString_delimit hlen rest

/-- What comes behind the first of some fields. -/
theorem ends_tagged {key fieldNo : ℕ} {ps : List Bytes} {rest : Bytes}
    (hkey : ps = [] ∨ KeyOf key fieldNo) (hrest : Ends fieldNo rest) :
    Ends 0 (tagged key ps ++ rest) := by
  cases ps with
  | nil => exact hrest.zero
  | cons p ps =>
    rw [tagged_cons, List.append_assoc, List.append_assoc]
    exact (hkey.resolve_left (List.cons_ne_nil _ _)).ends_zero _

/-- A value is one field, which `read` reads back. -/
structure ReadsOne (read : Bytes → Read Val) (v : Val) (p : Bytes) : Prop where
  ne_nil : p ≠ []
  reads : ∀ rest, Ends 0 rest → read (p ++ rest) = .ok (v, rest)

/-- The loop over items reads as many as there are. -/
theorem decodeItems_joined {item : Bytes → Read Val} {key fieldNo n : ℕ} {acc vs : List Val}
    {ps : List Bytes} {rest : Bytes} (hvs : List.Forall₂ (ReadsOne item) vs ps) (hne : ps ≠ [])
    (hkey : ps.length = 1 ∨ KeyOf key fieldNo) (hrest : Ends fieldNo rest)
    (hn : (joined key ps ++ rest).length < n) :
    decodeItems item fieldNo n acc (joined key ps ++ rest) = .ok (acc ++ vs, rest) := by
  induction hvs generalizing n acc with
  | nil => exact absurd rfl hne
  | @cons v p vs ps hv hvs ih =>
    cases n with
    | zero => exact absurd hn (Nat.not_lt_zero _)
    | succ n =>
      have hkey' : ps = [] ∨ KeyOf key fieldNo :=
        hkey.imp_left fun h => List.length_eq_zero_iff.mp (Nat.succ.inj h)
      have hview : joined key (p :: ps) ++ rest ≠ [] := by
        simp [joined, hv.ne_nil]
      rw [decodeItems, if_neg hview, joined, List.append_assoc,
        hv.reads _ (ends_tagged hkey' hrest)]
      simp only
      cases hvs with
      | nil =>
        rw [tagged_nil, List.nil_append]
        rcases hrest with rfl | ⟨key', rest', hread, hother, -⟩
        · rfl
        · split_ifs with hnil
          · rfl
          · simp only [hread, if_pos hother]
      | @cons w q ws qs hw hws =>
        have hfield := hkey'.resolve_left (List.cons_ne_nil _ _)
        have hsame : key % 2 ^ 32 / 8 = fieldNo := by
          rw [Nat.mod_eq_of_lt hfield.lt, hfield.div]
        have hlater : tagged key (q :: qs) ++ rest ≠ [] := by
          simp [tagged_cons, hw.ne_nil]
        rw [joined, tagged_eq_joined (List.cons_ne_nil _ _)] at hn
        rw [if_neg hlater, tagged_eq_joined (List.cons_ne_nil _ _), List.append_assoc,
          hfield.decodeVarint]
        simp only [hsame, ne_eq, not_true_eq_false, if_false]
        rw [ih (List.cons_ne_nil _ _) (.inr hfield), List.append_assoc, List.singleton_append]
        simp only [List.length_append] at hn ⊢
        have hpos := List.length_pos_iff.mpr hv.ne_nil
        omega

theorem delimit_ne_nil (b : Bytes) : delimit b ≠ [] := by
  simp [delimit, varintBytes_ne_nil]

/-- A field is never empty. -/
theorem payloads_nonempty {t : Ty} {v : Val} (hv : S.HasTy t v) (omitDefaultVal : Bool) :
    ∀ p ∈ payloads S v t omitDefaultVal, p ≠ [] := by
  induction hv generalizing omitDefaultVal with
  | num k u hu =>
    intro p hp
    rw [payloads] at hp
    split_ifs at hp
    · cases hp
    · exact List.mem_singleton.mp hp ▸ k.bytes_ne_nil u
  | string s =>
    intro p hp
    rw [payloads] at hp
    split_ifs at hp
    · cases hp
    · exact List.mem_singleton.mp hp ▸ delimit_ne_nil s
  | message id vs =>
    intro p hp
    exact List.mem_singleton.mp hp ▸ delimit_ne_nil _
  | sequence t vs hvs ih =>
    intro p hp
    rw [payloads] at hp
    split_ifs at hp with hlen hnil
    · clear hvs
      induction vs with
      | nil => cases hp
      | cons v vs ihvs =>
        rw [itemsPayloads, List.mem_append] at hp
        rcases hp with hp | hp
        · exact ih v List.mem_cons_self false p hp
        · exact ihvs (fun w hw => ih w (List.mem_cons_of_mem _ hw)) hp
    · cases hp
    · exact List.mem_singleton.mp hp ▸ delimit_ne_nil _
  | map k m es hk hm hkeys ihk ihm =>
    intro p hp
    rw [payloads] at hp
    clear hk hm hkeys ihk ihm
    induction es with
    | nil => cases hp
    | cons e es ih =>
      rw [List.map_cons, entriesPayloads, List.mem_cons] at hp
      rcases hp with rfl | hp
      · exact delimit_ne_nil _
      · exact ih hp
  | none t => simp [payloads]
  | some t v hv ih => exact ih omitDefaultVal

theorem length_le_joined {key : ℕ} {p : Bytes} {ps : List Bytes} (hp : p ∈ ps) :
    p.length ≤ (joined key ps).length := by
  cases ps with
  | nil => cases hp
  | cons q qs =>
    rw [joined, List.length_append]
    rcases List.mem_cons.mp hp with rfl | hp
    · omega
    · have hle : p.length ≤ (tagged key qs).length := by
        induction qs with
        | nil => cases hp
        | cons r rs ih =>
          rw [tagged_cons, List.length_append, List.length_append]
          rcases List.mem_cons.mp hp with rfl | hp'
          · omega
          · have := ih (List.mem_cons_of_mem _ hp') hp'
            omega
      omega

theorem reads_items {t : Ty} {d : Val} {vs : List Val} (ht : t.isLenprefixed = true)
    (hd : d.items = []) (hty : ∀ v ∈ vs, S.HasTy t v)
    (hone : ∀ v ∈ vs, (payloads S v t false).length = 1)
    (h : ∀ v ∈ vs, Reads lib S t (S.fresh t) v) : Reads lib S (.sequence t) d (.list vs) := by
  intro depth fieldNo key omitDefaultVal rest hne hkey hrest hlen
  rw [payloads, if_pos ht] at hne hkey hlen ⊢
  have hitems : List.Forall₂ (ReadsOne (fromPbImpl lib S (fromPb lib S depth) t (S.fresh t) 0)) vs
      (itemsPayloads S vs t) := by
    have hdepth : ∀ p ∈ itemsPayloads S vs t, p.length < depth :=
      fun p hp => (length_le_joined hp).trans_lt hlen
    clear hne hkey hlen
    induction vs with
    | nil => exact .nil
    | cons v vs ih =>
      obtain ⟨p, hp⟩ := List.length_eq_one_iff.mp (hone v List.mem_cons_self)
      rw [itemsPayloads, hp, List.singleton_append] at hdepth ⊢
      have hnil : p ≠ [] :=
        payloads_nonempty (hty v List.mem_cons_self) false p (hp ▸ List.mem_singleton_self p)
      refine .cons ⟨hnil, fun rest hrest => ?_⟩ (ih (fun w hw => hty w (List.mem_cons_of_mem _ hw))
        (fun w hw => hone w (List.mem_cons_of_mem _ hw))
        (fun w hw => h w (List.mem_cons_of_mem _ hw))
        fun q hq => hdepth q (List.mem_cons_of_mem _ hq))
      exact (h v List.mem_cons_self).one hp hrest (hdepth p List.mem_cons_self)
  rw [fromPbImpl, if_pos ht, hd, decodeItems_joined hitems hne hkey hrest (Nat.lt_succ_self _)]
  rfl

/-! ### Packed items -/

theorem fixedItems_packedBytes {k : Num} {vs : List Val} (hk : k.isFixed = true)
    (hty : ∀ v ∈ vs, S.HasTy (.num k) v) (rest : Bytes) :
    (packedBytes (.num k) vs).length = vs.length * k.width ∧
      fixedItems k.width vs.length (packedBytes (.num k) vs ++ rest) = vs := by
  have hwire : k.wireType ≠ .varint := by cases k <;> simp_all [Num.isFixed, Num.wireType]
  induction vs with
  | nil => exact ⟨(Nat.zero_mul _).symm, rfl⟩
  | cons v vs ih =>
    obtain ⟨hlen, hitems⟩ := ih fun w hw => hty w (List.mem_cons_of_mem _ hw)
    cases hty v List.mem_cons_self with
    | num _ u hu =>
      have hwidth : (k.bytes u).length = k.width := by rw [Num.bytes_of_fixed hwire, toLE_length]
      refine ⟨?_, ?_⟩
      · rw [packedBytes_cons, List.length_append, hlen, hwidth, List.length_cons, Nat.succ_mul,
          Nat.add_comm]
      · rw [packedBytes_cons, List.append_assoc, List.length_cons, fixedItems, ← hwidth,
          List.take_left, List.drop_left, hwidth, hitems, Num.ofLE_bytes hwire hu]

/-- The loop over packed items stops where they do. -/
theorem decodePacked_packedBytes {k : Num} {item : Bytes → Read Val} {n size : ℕ}
    {acc vs : List Val} {rest : Bytes}
    (hitem : ∀ (u : BitVec 64) s, k.cast u = u → item (k.bytes u ++ s) = .ok (.num u, s))
    (hty : ∀ v ∈ vs, S.HasTy (.num k) v) (hne : vs ≠ [])
    (hsize : (packedBytes (.num k) vs).length ≤ size)
    (hn : (packedBytes (.num k) vs ++ rest).length < n) :
    decodePacked item (size + rest.length) size n acc (packedBytes (.num k) vs ++ rest) =
      .ok (acc ++ vs, rest) := by
  induction vs generalizing n acc with
  | nil => exact absurd rfl hne
  | cons v vs ih =>
    cases n with
    | zero => exact absurd hn (Nat.not_lt_zero _)
    | succ n =>
      cases hty v List.mem_cons_self with
      | num _ u hu =>
        have hpos := List.length_pos_iff.mpr (k.bytes_ne_nil u)
        rw [packedBytes_cons, List.append_assoc] at hn ⊢
        rw [packedBytes_cons, List.length_append] at hsize
        have hview : k.bytes u ++ (packedBytes (.num k) vs ++ rest) ≠ [] := by
          simp [k.bytes_ne_nil u]
        rw [decodePacked, if_neg hview, hitem u _ hu]
        simp only [List.length_append] at hn ⊢
        cases vs with
        | nil =>
          rw [if_pos (by simp [packedBytes])]
          rfl
        | cons w ws =>
          have hmore : 0 < (packedBytes (.num k) (w :: ws)).length :=
            List.length_pos_iff.mpr fun h => List.cons_ne_nil w ws
              ((packedBytes_eq_nil fun x hx => hty x (List.mem_cons_of_mem _ hx)).mp h)
          rw [if_neg (by omega), ih (fun x hx => hty x (List.mem_cons_of_mem _ hx))
            (List.cons_ne_nil _ _) (by omega) (by rw [List.length_append]; omega),
            List.append_assoc]
          rfl

theorem reads_packed {k : Num} {d : Val} {vs : List Val} (ht : (Ty.num k).isLenprefixed = false)
    (hd : d.items = []) (hty : ∀ v ∈ vs, S.HasTy (.num k) v)
    (hfits : (packedBytes (.num k) vs).length < 2 ^ 32)
    (hroom : vs ≠ [] → (Ty.num k).fixedWidth ≠ none → lib = .items) :
    Reads lib S (.sequence (.num k)) d (.list vs) := by
  intro depth fieldNo key omitDefaultVal rest hne _ _ _
  rw [payloads, ht, if_neg Bool.false_ne_true] at hne ⊢
  split_ifs at hne ⊢ with hempty
  · exact absurd rfl hne
  · have hvs : vs ≠ [] := fun h => hempty (h ▸ rfl)
    rw [joined, tagged_nil, List.append_nil, fromPbImpl, ht, if_neg Bool.false_ne_true, hd,
      decodePackedItems, decodeSize_delimit hfits]
    simp only [Ty.fixedWidth]
    cases hfixed : k.isFixed with
    | true =>
      obtain ⟨hlen, hitems⟩ := fixedItems_packedBytes hfixed hty rest
      obtain rfl : lib = .items := hroom hvs (by simp [Ty.fixedWidth, hfixed])
      have hwidth : 3 < k.width := by cases k <;> simp [Num.width]
      have hdvd : k.width ∣ (packedBytes (.num k) vs).length := ⟨vs.length, by rw [hlen, mul_comm]⟩
      have hdiv : (packedBytes (.num k) vs).length / k.width = vs.length := by
        rw [hlen, Nat.mul_div_cancel _ (by omega)]
      have hnum : (packedBytes (.num k) vs).length / k.width < 2 ^ 31 := by
        have hwide : vs.length * 4 ≤ vs.length * k.width := Nat.mul_le_mul_left _ hwidth
        omega
      simp only [if_true, copyItems_nil hdvd hnum, hdiv, hitems, List.drop_left]
      rfl
    | false =>
      have hread := @decodePacked_packedBytes S k
        (fromPbImpl lib S (fromPb lib S depth) (.num k) (S.fresh (.num k)) 0) _ _ [] vs rest
        (fun u s hu => decodeNum_bytes hu s) hty hvs (Nat.le_refl _) (Nat.lt_succ_self _)
      rw [← List.length_append] at hread
      simp only [Bool.false_eq_true, if_false, hread]
      rfl

/-! ### Maps -/

theorem sameKey_eq {x y : Val} (h : sameKey x y = true) : x = y := by
  cases x <;> cases y <;> simp_all [sameKey]

/-- An entry with a new key is put behind the others. -/
theorem emplace_new {es : List (Val × Val)} {x y : Val} (h : x ∉ es.map Prod.fst) :
    emplace (es.map fun e => .pair e.1 e.2) x y =
      (es ++ [(x, y)]).map fun e => .pair e.1 e.2 := by
  rw [emplace, if_neg]
  · rw [List.map_append]
    rfl
  · rw [Bool.not_eq_true, List.any_eq_false]
    intro e he hsame
    obtain ⟨e', he', rfl⟩ := List.mem_map.mp he
    exact h (List.mem_map.mpr ⟨e', he', sameKey_eq hsame⟩)

/-- An entry is read back, whatever its size says. -/
structure ReadsEntry (key mapped : Bytes → Read Val) (e : Val × Val) (p : Bytes) : Prop where
  ne_nil : p ≠ []
  reads : ∀ rest, Ends 0 rest → ∃ size view view', decodeSize (p ++ rest) = .ok (size, view) ∧
    key view = .ok (e.1, view') ∧ mapped view' = .ok (e.2, rest)

/-- The loop over entries reads as many as there are. -/
theorem decodeEntries_joined {readKey mapped : Bytes → Read Val} {key fieldNo n : ℕ}
    {done es : List (Val × Val)} {ps : List Bytes} {rest : Bytes}
    (hes : List.Forall₂ (ReadsEntry readKey mapped) es ps) (hne : ps ≠ [])
    (hkeys : ((done ++ es).map Prod.fst).Nodup)
    (hkey : ps.length = 1 ∨ KeyOf key fieldNo) (hrest : Ends fieldNo rest)
    (hn : (joined key ps ++ rest).length < n) :
    decodeEntries readKey mapped fieldNo n (done.map fun e => .pair e.1 e.2)
      (joined key ps ++ rest) = .ok ((done ++ es).map fun e => .pair e.1 e.2, rest) := by
  induction hes generalizing n done with
  | nil => exact absurd rfl hne
  | @cons e p es ps he hes ih =>
    cases n with
    | zero => exact absurd hn (Nat.not_lt_zero _)
    | succ n =>
      have hkey' : ps = [] ∨ KeyOf key fieldNo :=
        hkey.imp_left fun h => List.length_eq_zero_iff.mp (Nat.succ.inj h)
      have hview : joined key (p :: ps) ++ rest ≠ [] := by
        simp [joined, he.ne_nil]
      have hnew : e.1 ∉ done.map Prod.fst := by
        rw [List.map_append, List.map_cons] at hkeys
        exact fun h => (List.nodup_append.mp hkeys).2.2 _ h _ List.mem_cons_self rfl
      obtain ⟨size, view, view', hsize, hreadKey, hmapped⟩ :=
        he.reads _ (ends_tagged hkey' hrest)
      have hassoc : done ++ e :: es = (done ++ [e]) ++ es := by simp
      rw [decodeEntries, if_neg hview, joined, List.append_assoc, hsize]
      simp only [hreadKey, hmapped, emplace_new hnew]
      rw [hassoc] at hkeys ⊢
      cases hes with
      | nil =>
        rw [tagged_nil, List.nil_append, List.append_nil]
        rcases hrest with rfl | ⟨key', rest', hread, hother, -⟩
        · rfl
        · split_ifs with hnil
          · rfl
          · simp only [hread, if_pos hother]
      | @cons w q ws qs hw hws =>
        have hfield := hkey'.resolve_left (List.cons_ne_nil _ _)
        have hsame : key % 2 ^ 32 / 8 = fieldNo := by
          rw [Nat.mod_eq_of_lt hfield.lt, hfield.div]
        have hlater : tagged key (q :: qs) ++ rest ≠ [] := by
          simp [tagged_cons, hw.ne_nil]
        rw [joined, tagged_eq_joined (List.cons_ne_nil _ _)] at hn
        rw [if_neg hlater, tagged_eq_joined (List.cons_ne_nil _ _), List.append_assoc,
          hfield.decodeVarint]
        simp only [hsame, ne_eq, not_true_eq_false, if_false]
        refine ih (List.cons_ne_nil _ _) hkeys (.inr hfield) ?_
        simp only [List.length_append] at hn ⊢
        have hpos := List.length_pos_iff.mpr he.ne_nil
        omega

/-- A key of one byte is kept. -/
theorem keyKept_of_lt {key : ℕ} (h : key < 128) : KeyKept key := by
  rw [KeyKept, serializeVarintU32, constexpr_of_lt h, varintBytes, if_pos h]
  rfl

theorem keyOf_entry {n : ℕ} (hn : n = 1 ∨ n = 2) (t : Ty) : KeyOf (keyOf n t) n := by
  have hcode := code_lt t.getWireType
  have heq := keyOf_eq n t
  exact ⟨keyKept_of_lt (by omega), by omega, by omega, by omega⟩

theorem keyOf_mod (n : ℕ) (t : Ty) : keyOf n t % 8 = t.getWireType.code := by
  have hcode := code_lt t.getWireType
  rw [keyOf_eq]
  omega

/-- A member of an entry, behind its key. -/
theorem decodePairValue_tagged {t : Ty} {v : Val} {p : Bytes} {n : ℕ} (hn : n = 1 ∨ n = 2)
    (h : Reads lib S t (S.fresh t) v) (hp : payloads S v t false = [p]) {depth : ℕ} {rest : Bytes}
    (hrest : Ends 0 rest) (hlen : p.length < depth) :
    decodePairValue t (S.fresh t) (fromPbImpl lib S (fromPb lib S depth) t (S.fresh t) 0)
      (tagged (keyOf n t) [p] ++ rest) = .ok (v, rest) := by
  rw [decodePairValue, tagged_cons, tagged_nil, List.append_nil, List.append_assoc,
    (keyOf_entry hn t).decodeVarint]
  simp only [keyOf_mod, ne_eq, not_true_eq_false, if_false]
  exact h.one hp hrest hlen

theorem reads_map {k m : Ty} {d : Val} {es : List (Val × Val)}
    (haccepted : (Ty.map k m).accepted = true) (hd : d.items = [])
    (hkty : ∀ e ∈ es, S.HasTy k e.1) (hkeys : (es.map Prod.fst).Nodup)
    (hlen : ∀ e ∈ es, SizeKept (entryBytes S k m e.1 e.2).length)
    (hone : ∀ e ∈ es, (payloads S e.2 m false).length = 1)
    (hk : ∀ e ∈ es, Reads lib S k (S.fresh k) e.1) (hm : ∀ e ∈ es, Reads lib S m (S.fresh m) e.2) :
    Reads lib S (.map k m) d (.list (es.map fun e => .pair e.1 e.2)) := by
  intro depth fieldNo key omitDefaultVal rest hne hkey hrest hdepth
  rw [payloads] at hne hkey hdepth ⊢
  have hentries : List.Forall₂ (ReadsEntry
      (decodePairValue k (S.fresh k) (fromPbImpl lib S (fromPb lib S depth) k (S.fresh k) 0))
      (decodePairValue m (S.fresh m) (fromPbImpl lib S (fromPb lib S depth) m (S.fresh m) 0))) es
      (entriesPayloads S (es.map fun e => .pair e.1 e.2) k m) := by
    have hshort : ∀ p ∈ entriesPayloads S (es.map fun e => .pair e.1 e.2) k m, p.length < depth :=
      fun p hp => (length_le_joined hp).trans_lt hdepth
    simp only [Ty.accepted, Bool.and_eq_true] at haccepted
    clear hne hkey hdepth hkeys
    induction es with
    | nil => exact .nil
    | cons e es ih =>
      obtain ⟨x, y⟩ := e
      rw [List.map_cons, entriesPayloads] at hshort ⊢
      obtain ⟨hkval, -, hkone, -⟩ := key_hasValueSize haccepted.1.1 (hkty _ List.mem_cons_self)
      obtain ⟨p, hp⟩ : ∃ p, payloads S x k false = [p] :=
        ⟨_, payloads_wrap (hkty _ List.mem_cons_self) hkval hkone⟩
      obtain ⟨q, hq⟩ := List.length_eq_one_iff.mp (hone _ List.mem_cons_self)
      have hsize := (hlen _ List.mem_cons_self).lt
      have hshorter : p.length < depth ∧ q.length < depth := by
        have hwhole := hshort _ List.mem_cons_self
        rw [hp, hq, delimit_length] at hwhole
        simp only [tagged_cons, List.length_append] at hwhole
        omega
      refine .cons ⟨delimit_ne_nil _, fun rest hrest => ?_⟩
        (ih (fun e he => hkty e (List.mem_cons_of_mem _ he))
          (fun e he => hlen e (List.mem_cons_of_mem _ he))
          (fun e he => hone e (List.mem_cons_of_mem _ he))
          (fun e he => hk e (List.mem_cons_of_mem _ he))
          (fun e he => hm e (List.mem_cons_of_mem _ he))
          fun r hr => hshort r (List.mem_cons_of_mem _ hr))
      have hnext : Ends 0 (tagged (keyOf 2 m) [q] ++ rest) := by
        rw [tagged_cons, List.append_assoc, List.append_assoc]
        exact (keyOf_entry (.inr rfl) m).ends_zero _
      refine ⟨_, _, tagged (keyOf 2 m) [q] ++ rest, decodeSize_entry (hsize.trans (by decide)) _,
        ?_, ?_⟩
      · simp only [entryBytes, hp, hq, List.append_assoc]
        exact decodePairValue_tagged (.inl rfl) (hk _ List.mem_cons_self) hp hnext hshorter.1
      · exact decodePairValue_tagged (.inr rfl) (hm _ List.mem_cons_self) hq hrest hshorter.2
  have hread := @decodeEntries_joined _ _ key fieldNo _ [] es _ rest hentries hne hkeys hkey hrest
    (Nat.lt_succ_self _)
  rw [fromPbImpl, hd]
  exact congrArg (Except.map fun p : List Val × Bytes => (Val.list p.1, p.2)) hread

theorem reads_some {t : Ty} {d v : Val} (hone : (payloads S v t false).length = 1)
    (h : Reads lib S t (S.fresh t) v) : Reads lib S (.optional t) d (.some v) := by
  intro depth fieldNo key omitDefaultVal rest hne hkey hrest hlen
  have hsame : payloads S (.some v) (.optional t) omitDefaultVal = payloads S v t false := by
    cases omitDefaultVal with
    | true => exact payloads_omitDefaultVal hne
    | false => rfl
  obtain ⟨p, hp⟩ := List.length_eq_one_iff.mp hone
  rw [hsame, hp, joined, tagged_nil, List.append_nil] at hlen ⊢
  rw [fromPbImpl, h.one hp hrest.zero hlen]
  rfl

end Values

/-! ### Messages -/

theorem lookup_of_mem {α : Type} {l : List (ℕ × α)} (hl : (l.map Prod.fst).Nodup) {n : ℕ} {c : α}
    (h : (n, c) ∈ l) : l.lookup n = some c := by
  induction l with
  | nil => cases h
  | cons e l ih =>
    rw [List.map_cons, List.nodup_cons] at hl
    rcases List.mem_cons.mp h with rfl | h
    · rw [List.lookup_cons_self]
    · have hne : (n == e.1) = false := by
        rw [beq_eq_false_iff_ne]
        rintro rfl
        exact hl.1 (List.mem_map.mpr ⟨_, h, rfl⟩)
      rw [List.lookup_cons, hne]
      exact ih hl.2 h

/-- The values of a message, the object that they are read into, and what becomes of that: each
member is read back, or stays as it is where nothing is written. -/
structure MessageReads (lib : Resize) (S : Schema) (id : ℕ) (ds vs ws : List Val) : Prop where
  length_eq : (S.message id).members.length = vs.length
  length_init : ds.length = vs.length
  length_result : ws.length = vs.length
  field : ∀ (i : ℕ) (m : Member) (v : Val), (S.message id).members[i]? = some m →
    vs[i]? = some v → ∃ f, m.field v = some f
  reads : ∀ (i : ℕ) (m : Member) (v : Val) (f : Field), (S.message id).members[i]? = some m →
    vs[i]? = some v → m.field v = some f → f.payloads S ≠ [] →
    KeyKept f.key ∧ Reads lib S f.ty ((⟨i, m.alt v, f.ty⟩ : Slot).into S ds) f.val ∧ ws[i]? = some v
  silent : ∀ (i : ℕ) (m : Member) (v : Val) (f : Field), (S.message id).members[i]? = some m →
    vs[i]? = some v → m.field v = some f → f.payloads S = [] → ws[i]? = ds[i]?

section Message

variable {lib : Resize} {S : Schema} {id : ℕ} {ds vs ws : List Val}

/-- The members that are behind the first `i`. -/
def remaining (S : Schema) (id : ℕ) (vs : List Val) (i : ℕ) : Bytes :=
  membersBytes S (vs.drop i) ((S.message id).members.drop i)

theorem drop_of_getElem? {α : Type} {l : List α} {i : ℕ} {a : α} (h : l[i]? = some a) :
    l.drop i = a :: l.drop (i + 1) := by
  obtain ⟨hi, rfl⟩ := List.getElem?_eq_some_iff.mp h
  exact List.drop_eq_getElem_cons hi

theorem remaining_eq {i : ℕ} {m : Member} {v : Val} {f : Field}
    (hm : (S.message id).members[i]? = some m) (hv : vs[i]? = some v) (hf : m.field v = some f) :
    remaining S id vs i = f.bytes S ++ remaining S id vs (i + 1) := by
  rw [remaining, drop_of_getElem? hm, drop_of_getElem? hv, membersBytes_cons, hf]
  rfl

namespace MessageReads

theorem exists_field (h : MessageReads lib S id ds vs ws) {i : ℕ} (hi : i < vs.length) :
    ∃ m v f, (S.message id).members[i]? = some m ∧ vs[i]? = some v ∧ m.field v = some f := by
  have hm := List.getElem?_eq_getElem (h.length_eq ▸ hi)
  have hv := List.getElem?_eq_getElem hi
  obtain ⟨f, hf⟩ := h.field i _ _ hm hv
  exact ⟨_, _, f, hm, hv, hf⟩

variable (hS : S.Valid) (h : MessageReads lib S id ds vs ws) {i : ℕ} {m : Member} {v : Val}
  {f : Field} (hm : (S.message id).members[i]? = some m) (hv : vs[i]? = some v)
    (hf : m.field v = some f)
include hS hm hf

theorem lookup : (S.message id).getMembers.lookup f.fieldNo = some ⟨i, m.alt v, f.ty⟩ :=
  lookup_of_mem (hS.nodup id) (MessageDef.mem_getMembers hm hf)

include h hv

theorem keyOf_field (hne : f.payloads S ≠ []) : KeyOf f.key f.fieldNo := by
  have hrange := hS.fieldNo id _ (MessageDef.mem_getMembers hm hf)
  have hcode := code_lt f.ty.getWireType
  have heq : f.key = f.fieldNo * 8 + f.ty.getWireType.code := keyOf_eq _ _
  simp only at hrange
  exact ⟨(h.reads i m v f hm hv hf hne).1, by omega, by omega, by omega⟩

omit hv in
/-- Behind a member come the fields of others. -/
theorem ends_remaining {j : ℕ} (hj : i < j) : Ends f.fieldNo (remaining S id vs j) := by
  by_cases hlt : j < vs.length
  · obtain ⟨m', v', f', hm', hv', hf'⟩ := h.exists_field hlt
    rw [remaining_eq hm' hv' hf', Field.bytes]
    by_cases hne : f'.payloads S = []
    · rw [hne, tagged_nil, List.nil_append]
      exact ends_remaining (hj.trans (Nat.lt_succ_self j))
    · have hkey := keyOf_field hS h hm' hv' hf' hne
      have hother : f'.fieldNo ≠ f.fieldNo := by
        intro heq
        have hsame := (lookup hS hm' hf').symm.trans (heq ▸ lookup hS hm hf)
        have hindex : j = i := congrArg Slot.member (Option.some.inj hsame)
        omega
      have hdiv : f'.key % 2 ^ 32 / 8 = f'.fieldNo := by rw [Nat.mod_eq_of_lt hkey.lt, hkey.div]
      rw [tagged_eq_joined hne, List.append_assoc]
      exact .inr ⟨f'.key, _, hkey.decodeVarint _, hdiv ▸ hother, hdiv ▸ hkey.pos⟩
  · left
    rw [remaining, List.drop_of_length_le (Nat.le_of_not_lt hlt)]
    rfl
termination_by vs.length - j

/-- A field is read into its member. -/
theorem read_field {state : List Val} (hstate : state[i]? = ds[i]?)
    (hne : f.payloads S ≠ []) {depth : ℕ} (hdepth : (f.bytes S).length ≤ depth) :
    (⟨i, m.alt v, f.ty⟩ : Slot).read lib S (fromPb lib S depth) f.fieldNo state
      (joined f.key (f.payloads S) ++ remaining S id vs (i + 1)) =
      .ok (state.set i v, remaining S id vs (i + 1)) := by
  have hkey := keyOf_field hS h hm hv hf hne
  have hlen : (joined f.key (f.payloads S)).length < depth := by
    rw [Field.bytes, tagged_eq_joined hne, List.length_append, serializeVarintU32_length] at hdepth
    have hpos : variantUint32SizeConstexpr f.key ≠ 0 := constexpr_ne_zero _
    omega
  have hread := (h.reads i m v f hm hv hf hne).2.1 depth f.fieldNo f.key f.omitDefaultVal _ hne
    (.inr hkey) (ends_remaining hS h hm hf (Nat.lt_succ_self i)) hlen
  obtain ⟨n, ty⟩ := m
  cases ty with
  | plain t =>
    obtain rfl := Option.some.inj hf
    have hinto : state.getD i .none = ds.getD i .none := by
      rw [List.getD_eq_getElem?_getD, List.getD_eq_getElem?_getD, hstate]
    rw [Slot.read]
    simp only [Member.alt, hinto]
    simp only [Slot.into, Member.alt] at hread
    rw [Field.payloads, hread]
    rfl
  | oneof ts =>
    cases v with
    | alt a w =>
      obtain ⟨t, ht, rfl⟩ := Option.map_eq_some_iff.mp hf
      rw [Slot.read]
      simp only [Slot.into, Member.alt] at hread ⊢
      rw [Field.payloads, hread]
      rfl
    | _ => cases hf

end MessageReads

theorem take_append_drop_succ {i : ℕ} {v : Val} (hv : ws[i]? = some v) :
    ws.take i ++ v :: ds.drop (i + 1) = ws.take (i + 1) ++ ds.drop (i + 1) := by
  rw [List.take_add_one, hv]
  simp

/-- The members from one on are read into what is in the object there. -/
theorem readMembers_remaining (hS : S.Valid) (h : MessageReads lib S id ds vs ws) {depth i n : ℕ}
    (hi : i ≤ vs.length) (hn : (remaining S id vs i).length < n)
    (hdepth : (remaining S id vs i).length ≤ depth) :
    readMembers lib S (fromPb lib S depth) (S.message id).getMembers n (ws.take i ++ ds.drop i)
      (remaining S id vs i) = .ok ws := by
  cases n with
  | zero => exact absurd hn (Nat.not_lt_zero _)
  | succ n =>
    rcases hi.eq_or_lt with rfl | hlt
    · have hnil : remaining S id vs vs.length = [] := by
        rw [remaining, List.drop_length]
        rfl
      rw [hnil, readMembers, if_pos rfl, List.take_of_length_le h.length_result.le,
        List.drop_of_length_le h.length_init.le, List.append_nil]
    · obtain ⟨m, v, f, hm, hv, hf⟩ := h.exists_field hlt
      by_cases hne : f.payloads S = []
      · -- nothing is there, and the object has the value
        have hskip : remaining S id vs i = remaining S id vs (i + 1) := by
          rw [remaining_eq hm hv hf, Field.bytes, hne, tagged_nil, List.nil_append]
        have hinit := List.getElem?_eq_getElem (h.length_init ▸ hlt)
        rw [hskip] at hn hdepth ⊢
        rw [drop_of_getElem? hinit,
          take_append_drop_succ ((h.silent i m v f hm hv hf hne).trans hinit)]
        exact readMembers_remaining hS h hlt hn hdepth
      · have hkey := h.keyOf_field hS hm hv hf hne
        have hbytes := remaining_eq hm hv hf
        have hlen : (ws.take i).length = i := by
          rw [List.length_take, h.length_result]
          omega
        have hstate : (ws.take i ++ ds.drop i)[i]? = ds[i]? := by
          rw [List.getElem?_append_right (by omega), hlen, Nat.sub_self, List.getElem?_drop,
            Nat.add_zero]
        have hset : (ws.take i ++ ds.drop i).set i v = ws.take (i + 1) ++ ds.drop (i + 1) := by
          have hinit : i < ds.length := by rw [h.length_init]; exact hlt
          rw [List.drop_eq_getElem_cons hinit, List.set_append_right _ _ (by omega), hlen,
            Nat.sub_self, List.set_cons_zero,
            take_append_drop_succ (h.reads i m v f hm hv hf hne).2.2]
        have hview : remaining S id vs i ≠ [] := by
          rw [hbytes, Field.bytes, tagged_eq_joined hne, hkey.kept]
          simp [varintBytes_ne_nil]
        have hread := h.read_field hS hm hv hf hstate hne
          ((by rw [hbytes, List.length_append]; omega :
            (f.bytes S).length ≤ (remaining S id vs i).length).trans hdepth)
        have hpos : 0 < (serializeVarintU32 f.key).length := by
          rw [serializeVarintU32_length]
          exact Nat.succ_pos _
        rw [hbytes, Field.bytes, tagged_eq_joined hne] at hn hdepth
        simp only [List.length_append] at hn hdepth
        rw [readMembers, if_neg hview, hbytes, Field.bytes, tagged_eq_joined hne,
          List.append_assoc, hkey.decodeVarint]
        simp only [Nat.mod_eq_of_lt hkey.lt, hkey.div, MessageReads.lookup hS hm hf]
        rw [if_neg (by rw [Field.key, keyOf_mod]; exact fun h => h rfl), hread]
        simp only [hset]
        exact readMembers_remaining hS h hlt (by omega) (by omega)
termination_by vs.length - i

/-- A message is read into an object. -/
theorem fromPb_membersBytes (hS : S.Valid) {d : Val} (h : MessageReads lib S id d.items vs ws)
    {depth : ℕ} (hdepth : (membersBytes S vs (S.message id).members).length < depth) :
    fromPb lib S depth id d (membersBytes S vs (S.message id).members) = .ok (.list ws) := by
  cases depth with
  | zero => exact absurd hdepth (Nat.not_lt_zero _)
  | succ depth =>
    have hread := @readMembers_remaining lib S id d.items vs ws hS h depth 0 _ (Nat.zero_le _)
      (Nat.lt_succ_self _) (Nat.le_of_lt_succ hdepth)
    rw [fromPb]
    exact congrArg (Except.map Val.list) hread

theorem reads_message (hS : S.Valid) {d : Val} (hd : S.HasTy (.message id) d)
    (h : MessageReads lib S id d.items vs vs)
    (hlen : (membersBytes S vs (S.message id).members).length < 2 ^ 32) :
    Reads lib S (.message id) d (.list vs) := by
  intro depth fieldNo key omitDefaultVal rest _ _ _ hdepth
  rw [payloads, joined, tagged_nil, List.append_nil] at hdepth ⊢
  rw [delimit_length] at hdepth
  rw [fromPbImpl, decodeSize_delimit hlen]
  simp only
  split_ifs with hzero
  · -- nothing is written: the object is the value
    have hnil : membersBytes S vs (S.message id).members = [] := List.length_eq_zero_iff.mp hzero
    have hread := @fromPb_membersBytes lib S id vs vs hS d h 1 (by rw [hnil]; exact Nat.one_pos)
    rw [hnil] at hread ⊢
    cases hd with
    | message _ ds => exact congrArg (fun v => Except.ok (v, rest)) (Except.ok.inj hread)
  · rw [List.take_left, List.drop_left, fromPb_membersBytes hS h (by omega)]

end Message

/-! ### Whole messages -/

section Whole

variable {lib : Resize} {S : Schema}

theorem fresh_hasTy (hS : S.Valid) (t : Ty) : S.HasTy t (S.fresh t) := by
  cases t with
  | num k => exact .num k 0 (by cases k <;> first | rfl | (rename_i w signed; cases w <;> cases signed <;> rfl))
  | string => exact .string []
  | message id => exact hS.init id
  | sequence t => exact .sequence t [] fun _ h => nomatch h
  | map k m => exact .map k m [] (fun _ h => nomatch h) (fun _ h => nomatch h) List.nodup_nil
  | optional t => exact .none t

theorem mem_zip_of_getElem? {α β : Type} {l : List α} {l' : List β} {i : ℕ} {a : α} {b : β}
    (ha : l[i]? = some a) (hb : l'[i]? = some b) : (a, b) ∈ l.zip l' :=
  List.mem_iff_getElem?.mpr ⟨i, List.getElem?_zip_eq_some.mpr ⟨ha, hb⟩⟩

/-- A field is read into an object of its type. -/
theorem into_hasTy (hS : S.Valid) {i : ℕ} {m : Member} {v : Val} {f : Field} {ds : List Val}
    (hf : m.field v = some f)
    (hds : ∀ f', m.field (ds.getD i .none) = some f' → S.HasTy f'.ty f'.val) :
    S.HasTy f.ty ((⟨i, m.alt v, f.ty⟩ : Slot).into S ds) := by
  obtain ⟨n, ty⟩ := m
  cases ty with
  | plain t =>
    obtain rfl := Option.some.inj hf
    exact hds _ rfl
  | oneof ts =>
    cases v with
    | alt a w => exact fresh_hasTy hS f.ty
    | _ => cases hf

/-- What is written of a message is read back. -/
theorem messageReads_of_written (hS : S.Valid) {id : ℕ} {d : Val} {vs ws : List Val}
    (hd : S.HasTy (.message id) d) (hv : S.HasTy (.message id) (.list vs))
    (hlen : ws.length = vs.length)
    (hk : ∀ (i : ℕ) (m : Member) (v : Val) (f : Field), (S.message id).members[i]? = some m →
      vs[i]? = some v → m.field v = some f → f.payloads S ≠ [] → KeyKept f.key ∧
        Kept lib S true f.ty ((⟨i, m.alt v, f.ty⟩ : Slot).into S d.items) f.val ∧ ws[i]? = some v)
    (hsilent : ∀ (i : ℕ) (m : Member) (v : Val) (f : Field), (S.message id).members[i]? = some m →
      vs[i]? = some v → m.field v = some f → f.payloads S = [] → ws[i]? = d.items[i]?)
    (hreads : ∀ p ∈ (S.message id).members.zip vs, ∀ f, p.1.field p.2 = some f →
      ∀ d, S.HasTy f.ty d → Kept lib S true f.ty d f.val → Reads lib S f.ty d f.val) :
    MessageReads lib S id d.items vs ws := by
  cases hv with
  | message _ _ hvlen hfield hty =>
    cases hd with
    | message _ ds hdlen hdfield hdty =>
      refine ⟨hvlen, hdlen.symm.trans hvlen, hlen, fun i m v hm hv => ?_,
        fun i m v f hm hv hf hne => ?_, hsilent⟩
      · exact Option.isSome_iff_exists.mp (hfield _ (mem_zip_of_getElem? hm hv))
      · obtain ⟨hkey, hkept, hback⟩ := hk i m v f hm hv hf hne
        have hi : i < ds.length := by
          rw [← hdlen]
          exact (List.getElem?_eq_some_iff.mp hm).1
        have hget : ds[i]? = some (ds.getD i .none) := by
          rw [List.getD_eq_getElem?_getD, List.getElem?_eq_getElem hi]
          rfl
        have hinto := into_hasTy hS hf fun f' hf' => hdty _ (mem_zip_of_getElem? hm hget) f' hf'
        exact ⟨hkey, hreads _ (mem_zip_of_getElem? hm hv) f hf _ hinto hkept, hback⟩

theorem messageReads_of_kept (hS : S.Valid) {id : ℕ} {d : Val} {vs : List Val} {nested : Bool}
    (hd : S.HasTy (.message id) d) (hv : S.HasTy (.message id) (.list vs))
    (hk : Kept lib S nested (.message id) d (.list vs))
    (hreads : ∀ p ∈ (S.message id).members.zip vs, ∀ f, p.1.field p.2 = some f →
      ∀ d, S.HasTy f.ty d → Kept lib S true f.ty d f.val → Reads lib S f.ty d f.val) :
    MessageReads lib S id d.items vs vs := by
  cases hk with
  | message _ _ _ _ _ hval hkey hsilent =>
    refine messageReads_of_written hS hd hv rfl (fun i m v f hm hv hf hne => ?_)
      (fun i m v f hm hv hf hnil => ?_) hreads
    · exact ⟨hkey i m v f hm hv hf hne, hval i m v f hm hv hf hne, hv⟩
    · exact hv.trans (hsilent i m v f hm hv hf hnil).symm

/-- The fields of a value that is kept are read back. -/
theorem reads_of_kept (hS : S.Valid) {t : Ty} {d v : Val} (hv : S.HasTy t v)
    (hd : S.HasTy t d) (ht : t.accepted = true) (hs : Sized S true t v)
    (hk : Kept lib S true t d v) :
    Reads lib S t d v := by
  induction hv generalizing d with
  | num k u hu => exact reads_num hu
  | string s =>
    cases hk with
    | string _ _ _ hlen => exact reads_string hlen
  | message id vs hlen hfield hty ih =>
    cases hs with
    | message _ _ _ _ hval _ =>
      have hmessage := messageReads_of_kept hS hd (.message id vs hlen hfield hty) hk
        fun p hp f hf d hd hk => ih p hp f hf hd (hS.of_field hp hf).2 (hval p hp f hf) hk
      cases hk with
      | message _ _ _ _ hfits => exact reads_message hS hd hmessage (hfits rfl)
  | sequence t vs hty ih =>
    cases hs with
    | sequence _ _ _ _ hsized =>
      simp only [Ty.accepted, Bool.and_eq_true, Bool.or_eq_true] at ht
      cases hk with
      | items _ _ _ _ hlen hnil hone hvs =>
        exact reads_items hlen hnil hty hone fun v hv =>
          ih v hv (fresh_hasTy hS t) ht.1 (hsized v hv) (hvs v hv)
      | packed _ _ _ _ hlen hnil hfits hroom =>
        obtain ⟨k, rfl⟩ : ∃ k, t = .num k := by
          cases t <;> simp_all [Ty.isNum]
        exact reads_packed hlen hnil hty hfits hroom
  | map k m es hkty hmty hkeys ihk ihm =>
    cases hs with
    | map _ _ _ _ hksized hmsized hlen _ =>
      cases hk with
      | map _ _ _ _ _ hnil hkkept hmkept hone =>
        have hpair : ∀ e ∈ es, Val.pair e.1 e.2 ∈ es.map fun e => Val.pair e.1 e.2 :=
          fun e he => List.mem_map_of_mem he
        have haccepted := accepted_of_map ht
        exact reads_map ht hnil hkty hkeys (fun e he => hlen _ _ (hpair e he))
          (fun e he => hone _ _ (hpair e he))
          (fun e he => ihk e he (fresh_hasTy hS k) haccepted.1 (hksized _ _ (hpair e he))
            (hkkept _ _ (hpair e he)))
          fun e he => ihm e he (fresh_hasTy hS m) haccepted.2 (hmsized _ _ (hpair e he))
            (hmkept _ _ (hpair e he))
  | none t => exact fun _ _ _ _ _ hne => absurd rfl hne
  | some t v hv ih =>
    cases hk with
    | some _ _ _ _ hone hk =>
      cases hs with
      | some _ _ _ hs => exact reads_some hone (ih (fresh_hasTy hS t) ht hs hk)

/-- What is read of the values of a message that are kept. -/
theorem reads_of_zip (hS : S.Valid) {id : ℕ} {vs : List Val}
    (hv : S.HasTy (.message id) (.list vs)) (hs : Sized S false (.message id) (.list vs)) :
    ∀ p ∈ (S.message id).members.zip vs, ∀ f, p.1.field p.2 = some f →
      ∀ d, S.HasTy f.ty d → Kept lib S true f.ty d f.val → Reads lib S f.ty d f.val := by
  intro p hp f hf d hd hk
  cases hs with
  | message _ _ _ _ hval _ =>
    cases hv with
    | message _ _ _ _ hty =>
      exact reads_of_kept hS (hty p hp f hf) hd (hS.of_field hp hf).2 (hval p hp f hf) hk

/-- What comes of a message, from what is read of it. -/
theorem fromPb_toPb (hS : S.Valid) {id : ℕ} {vs ws : List Val}
    (hv : S.HasTy (.message id) (.list vs)) (hs : Sized S false (.message id) (.list vs))
    (h : MessageReads lib S id (S.message id).init vs ws) :
    RoundTrips lib S id (.list vs) ↔ ws = vs := by
  have hwritten := toPb_eq hS hv hs
  have hread := @fromPb_membersBytes lib S id vs ws hS (S.fresh (.message id)) h _
    (Nat.lt_succ_self _)
  constructor
  · rintro ⟨b, hb, hback⟩
    obtain rfl := Option.some.inj (hwritten.symm.trans hb)
    exact Val.list.inj (Except.ok.inj (hread.symm.trans hback))
  · rintro rfl
    exact ⟨_, hwritten, hread⟩

/-- A message that is kept comes back. -/
theorem roundTrips_of_kept (hS : S.Valid) {id : ℕ} {v : Val} (hv : S.HasTy (.message id) v)
    (hs : Sized S false (.message id) v)
    (hk : Kept lib S false (.message id) (S.fresh (.message id)) v) : RoundTrips lib S id v := by
  obtain ⟨vs, rfl⟩ : ∃ vs, v = .list vs := by
    cases hv with
    | message _ vs => exact ⟨vs, rfl⟩
  exact (fromPb_toPb hS hv hs (messageReads_of_kept hS (fresh_hasTy hS _) hv hk
    (reads_of_zip hS hv hs))).mpr rfl

/-- What becomes of the members of a default-constructed message. -/
def restored (S : Schema) (id : ℕ) (vs : List Val) : List Val :=
  ((S.message id).members.zip (vs.zip (S.message id).init)).map fun p =>
    if ((p.1.field p.2.1).map (Field.payloads S)).getD [] = [] then p.2.2 else p.2.1

/-- Where what is written of a message is kept, the message comes back exactly when what is not
written of it is in a default-constructed one. -/
theorem roundTrips_iff_silent (hS : S.Valid) {id : ℕ} {vs : List Val}
    (hv : S.HasTy (.message id) (.list vs)) (hs : Sized S false (.message id) (.list vs))
    (hk : ∀ (i : ℕ) (m : Member) (v : Val) (f : Field), (S.message id).members[i]? = some m →
      vs[i]? = some v → m.field v = some f → f.payloads S ≠ [] → KeyKept f.key ∧
        Kept lib S true f.ty ((⟨i, m.alt v, f.ty⟩ : Slot).into S (S.message id).init) f.val) :
    RoundTrips lib S id (.list vs) ↔
      ∀ (i : ℕ) (m : Member) (v : Val) (f : Field), (S.message id).members[i]? = some m →
        vs[i]? = some v → m.field v = some f → f.payloads S = [] →
          (S.message id).init[i]? = some v := by
  have hlen : (S.message id).members.length = vs.length := by
    cases hv with
    | message _ _ hlen => exact hlen
  have hinit : (S.message id).members.length = (S.message id).init.length := by
    cases hS.init id with
    | message _ _ hlen => exact hlen
  have hfield : ∀ {i : ℕ} {m : Member} {v : Val}, (S.message id).members[i]? = some m →
      vs[i]? = some v → ∃ f, m.field v = some f := by
    intro i m v hm hv'
    cases hv with
    | message _ _ _ hfield =>
      exact Option.isSome_iff_exists.mp (hfield _ (mem_zip_of_getElem? hm hv'))
  have hrestored : ∀ {i : ℕ} {m : Member} {v : Val} {f : Field},
      (S.message id).members[i]? = some m → vs[i]? = some v → m.field v = some f →
        (restored S id vs)[i]? =
          if f.payloads S = [] then (S.message id).init[i]? else some v := by
    intro i m v f hm hv' hf
    have hi : i < (S.message id).init.length := by
      rw [← hinit]
      exact (List.getElem?_eq_some_iff.mp hm).1
    have hzip : ((S.message id).members.zip (vs.zip (S.message id).init))[i]? =
        some (m, v, (S.message id).init[i]) :=
      List.getElem?_zip_eq_some.mpr
        ⟨hm, List.getElem?_zip_eq_some.mpr ⟨hv', List.getElem?_eq_getElem hi⟩⟩
    rw [restored, List.getElem?_map, hzip, Option.map_some, hf, List.getElem?_eq_getElem hi]
    simp only [Option.map_some, Option.getD_some]
    split_ifs <;> rfl
  have hback : (restored S id vs).length = vs.length := by
    simp [restored, hlen, ← hinit]
  have hmessage : MessageReads lib S id (S.message id).init vs (restored S id vs) := by
    refine messageReads_of_written hS (hS.init id) hv hback (fun i m v f hm hv' hf hne => ?_)
      (fun i m v f hm hv' hf hnil => ?_) (reads_of_zip hS hv hs)
    · obtain ⟨hkey, hkept⟩ := hk i m v f hm hv' hf hne
      exact ⟨hkey, hkept, by rw [hrestored hm hv' hf, if_neg hne]⟩
    · rw [hrestored hm hv' hf, if_pos hnil]
      rfl
  refine (fromPb_toPb hS hv hs hmessage).trans ⟨fun h i m v f hm hv' hf hnil => ?_, fun h => ?_⟩
  · have hmember := hrestored hm hv' hf
    rw [if_pos hnil, h, hv'] at hmember
    exact hmember.symm
  · apply List.ext_getElem?
    intro i
    by_cases hi : i < vs.length
    · have hm := List.getElem?_eq_getElem (hlen ▸ hi)
      have hv' := List.getElem?_eq_getElem hi
      obtain ⟨f, hf⟩ := hfield hm hv'
      rw [hrestored hm hv' hf]
      split_ifs with hnil
      · rw [h i _ _ f hm hv' hf hnil, hv']
      · exact hv'.symm
    · rw [List.getElem?_eq_none (Nat.le_of_not_lt hi),
        List.getElem?_eq_none (by rw [hback]; exact Nat.le_of_not_lt hi)]

/-! ### A record -/

theorem hasTy_of_fields {id : ℕ} {vs : List Val}
    (h : List.Forall₂ (fun m v => ∃ f, m.field v = some f ∧ S.HasTy f.ty f.val)
      (S.message id).members vs) : S.HasTy (.message id) (.list vs) := by
  have hzip := List.forall₂_iff_zip.mp h
  refine .message id vs hzip.1 (fun p hp => ?_) fun p hp f hf => ?_
  · obtain ⟨f, hf, -⟩ := hzip.2 hp
    rw [hf]
    rfl
  · obtain ⟨f', hf', hty⟩ := hzip.2 hp
    obtain rfl := Option.some.inj (hf'.symm.trans hf)
    exact hty

theorem sized_of_fields {nested : Bool} {id : ℕ} {vs : List Val}
    (hlen : nested = true → (if (S.message id).base then
        SizeKept (membersBytes S vs (S.message id).members).length
      else (membersBytes S vs (S.message id).members).length < 2 ^ 32))
    (h : List.Forall₂ (fun m v => ∃ f, m.field v = some f ∧ Sized S true f.ty f.val ∧
      (f.bytes S).length < 2 ^ 31) (S.message id).members vs) :
    Sized S nested (.message id) (.list vs) := by
  have hzip := List.forall₂_iff_zip.mp h
  refine .message nested id vs hlen (fun p hp f hf => ?_) fun p hp f hf _ => ?_
  · obtain ⟨f', hf', hsized, -⟩ := hzip.2 hp
    obtain rfl := Option.some.inj (hf'.symm.trans hf)
    exact hsized
  · obtain ⟨f', hf', -, hbytes⟩ := hzip.2 hp
    obtain rfl := Option.some.inj (hf'.symm.trans hf)
    exact hbytes

/-- Each member is written and kept, or is in the object. -/
theorem kept_of_fields {nested : Bool} {id : ℕ} {d : Val} {vs : List Val}
    (hlen : nested = true → (membersBytes S vs (S.message id).members).length < 2 ^ 32)
    (h : ∀ p ∈ ((S.message id).members.zip vs).zipIdx, ∀ f, p.1.1.field p.1.2 = some f →
      (f.payloads S = [] → d.items[p.2]? = some p.1.2) ∧ (f.payloads S ≠ [] → KeyKept f.key ∧
        Kept lib S true f.ty ((⟨p.2, p.1.1.alt p.1.2, f.ty⟩ : Slot).into S d.items) f.val)) :
    Kept lib S nested (.message id) d (.list vs) := by
  have hmem : ∀ {i : ℕ} {m : Member} {v : Val}, (S.message id).members[i]? = some m →
      vs[i]? = some v → ((m, v), i) ∈ ((S.message id).members.zip vs).zipIdx := by
    intro i m v hm hv
    exact List.mk_mem_zipIdx_iff_getElem?.mpr (List.getElem?_zip_eq_some.mpr ⟨hm, hv⟩)
  refine .message nested id d vs hlen (fun i m v f hm hv hf hne => ?_)
    (fun i m v f hm hv hf hne => ?_) fun i m v f hm hv hf hnil => ?_
  · exact ((h _ (hmem hm hv) f hf).2 hne).2
  · exact ((h _ (hmem hm hv) f hf).2 hne).1
  · exact (h _ (hmem hm hv) f hf).1 hnil

/-- `int32_t`. -/
abbrev int32 : Ty := .num (.integral .w32 true)

/-- `struct record { std::optional<int32_t> o; std::vector<std::string> texts;
std::map<int32_t, std::string> names; item inner; std::variant<int32_t, std::string> either;
std::vector<int32_t> numbers; }` and `struct item { int32_t n; std::string s; }`. -/
def recordSchema : Schema :=
  [⟨false, [⟨1, .plain (.optional int32)⟩, ⟨2, .plain (.sequence .string)⟩,
      ⟨3, .plain (.map int32 .string)⟩, ⟨4, .plain (.message 1)⟩, ⟨5, .oneof [int32, .string]⟩,
      ⟨7, .plain (.sequence int32)⟩],
    [.none, .list [], .list [], .list [.num 0, .str []], .alt 0 (.num 0), .list []]⟩,
  ⟨false, [⟨1, .plain int32⟩, ⟨2, .plain .string⟩], [.num 0, .str []]⟩]

/-- The names of 1 and of 2. -/
def names : List Val := [.pair (.num 1) (.str [0x62]), .pair (.num 2) (.str [])]

/-- A record with two texts, two names, an item whose text is empty, and three numbers. -/
def record : List Val :=
  [.some (.num 1), .list [.str [0x61], .str []], .list names, .list [.num 7, .str []],
    .alt 1 (.str []), .list [.num 0, .num 1, .num 300]]

theorem hasTy_item (u : BitVec 64) (hu : (Num.integral .w32 true).cast u = u) :
    recordSchema.HasTy (.message 1) (.list [.num u, .str []]) :=
  hasTy_of_fields (.cons ⟨_, rfl, .num _ _ hu⟩ (.cons ⟨_, rfl, .string _⟩ .nil))

theorem valid_recordSchema : recordSchema.Valid where
  nodup id := by
    match id with
    | 0 => decide
    | 1 => decide
    | _ + 2 => exact List.nodup_nil
  fieldNo id := by
    match id with
    | 0 => decide
    | 1 => decide
    | _ + 2 => exact fun c hc => nomatch hc
  accepted id := by
    match id with
    | 0 => decide
    | 1 => decide
    | _ + 2 => exact fun c hc => nomatch hc
  init id := by
    match id with
    | 0 =>
      refine hasTy_of_fields (.cons ⟨_, rfl, .none _⟩ (.cons ⟨_, rfl, ?_⟩ (.cons ⟨_, rfl, ?_⟩
        (.cons ⟨_, rfl, hasTy_item 0 rfl⟩ (.cons ⟨_, rfl, .num _ _ rfl⟩
          (.cons ⟨_, rfl, ?_⟩ .nil))))))
      · exact .sequence _ _ (List.forall_mem_nil _)
      · exact .map _ _ [] (List.forall_mem_nil _) (List.forall_mem_nil _) List.nodup_nil
      · exact .sequence _ _ (List.forall_mem_nil _)
    | 1 => exact hasTy_item 0 rfl
    | _ + 2 => exact hasTy_of_fields .nil

theorem hasTy_record : recordSchema.HasTy (.message 0) (.list record) := by
  refine hasTy_of_fields (.cons ⟨_, rfl, .some _ _ (.num _ _ rfl)⟩ (.cons ⟨_, rfl, ?_⟩
    (.cons ⟨_, rfl, ?_⟩ (.cons ⟨_, rfl, hasTy_item 7 rfl⟩ (.cons ⟨_, rfl, .string _⟩
      (.cons ⟨_, rfl, ?_⟩ .nil))))))
  · apply Schema.HasTy.sequence
    simp only [List.forall_mem_cons]
    exact ⟨.string _, .string _, List.forall_mem_nil _⟩
  · apply Schema.HasTy.map _ _ [(.num 1, .str [0x62]), (.num 2, .str [])]
    · simp only [List.forall_mem_cons]
      exact ⟨.num _ _ rfl, .num _ _ rfl, List.forall_mem_nil _⟩
    · simp only [List.forall_mem_cons]
      exact ⟨.string _, .string _, List.forall_mem_nil _⟩
    · simp
  · apply Schema.HasTy.sequence
    simp only [List.forall_mem_cons]
    exact ⟨.num _ _ rfl, .num _ _ rfl, .num _ _ rfl, List.forall_mem_nil _⟩

theorem forall_names {x y : Val} (hxy : .pair x y ∈ names) :
    Sized recordSchema true int32 x ∧ Sized recordSchema true .string y ∧
      SizeKept (entryBytes recordSchema int32 .string x y).length ∧
      MappedSized recordSchema .string y := by
  simp only [names, List.mem_cons, Val.pair.injEq, List.not_mem_nil, or_false] at hxy
  obtain ⟨rfl, rfl⟩ | ⟨rfl, rfl⟩ := hxy
  · exact ⟨.num _ _ _, .string _ _ (.of_lt (by decide)), .of_lt (by decide), nofun, nofun⟩
  · exact ⟨.num _ _ _, .string _ _ (.of_lt (by decide)), .of_lt (by decide), nofun, nofun⟩

theorem sized_record : Sized recordSchema false (.message 0) (.list record) := by
  refine sized_of_fields nofun (.cons ⟨_, rfl, .some _ _ _ (.num _ _ _), by decide⟩
    (.cons ⟨_, rfl, ?_, by decide⟩ (.cons ⟨_, rfl, ?_, by decide⟩ (.cons ⟨_, rfl, ?_, by decide⟩
      (.cons ⟨_, rfl, .string _ _ (.of_lt (by decide)), by decide⟩
        (.cons ⟨_, rfl, ?_, by decide⟩ .nil))))))
  · apply Sized.sequence _ _ _ (.of_lt (by decide))
    simp only [List.forall_mem_cons]
    exact ⟨.string _ _ (.of_lt (by decide)), .string _ _ (.of_lt (by decide)),
      List.forall_mem_nil _⟩
  · apply Sized.map
    · rintro x y hxy
      exact (forall_names hxy).1
    · rintro x y hxy
      exact (forall_names hxy).2.1
    · rintro x y hxy
      exact (forall_names hxy).2.2.1
    · rintro x y hxy
      exact (forall_names hxy).2.2.2
  · refine sized_of_fields (fun _ => ?_) (.cons ⟨_, rfl, .num _ _ _, by decide⟩
      (.cons ⟨_, rfl, .string _ _ (.of_lt (by decide)), by decide⟩ .nil))
    rw [if_neg (by decide)]
    decide
  · apply Sized.sequence _ _ _ (.of_lt (by decide))
    simp only [List.forall_mem_cons]
    exact ⟨.num _ _ _, .num _ _ _, .num _ _ _, List.forall_mem_nil _⟩

theorem kept_names {x y : Val} (hxy : .pair x y ∈ names) :
    Kept .bytes recordSchema true int32 (recordSchema.fresh int32) x ∧
      Kept .bytes recordSchema true .string (recordSchema.fresh .string) y ∧
      (payloads recordSchema y .string false).length = 1 := by
  simp only [names, List.mem_cons, Val.pair.injEq, List.not_mem_nil, or_false] at hxy
  obtain ⟨rfl, rfl⟩ | ⟨rfl, rfl⟩ := hxy
  · exact ⟨.num _ _ _ _, .string _ _ _ (by decide), rfl⟩
  · exact ⟨.num _ _ _ _, .string _ _ _ (by decide), rfl⟩

theorem kept_item : Kept .bytes recordSchema true (.message 1)
    (.list [.num 0, .str []]) (.list [.num 7, .str []]) := by
  refine kept_of_fields (fun _ => by decide) fun p hp f hf => ?_
  simp only [recordSchema, Schema.message, List.getD_cons_succ, List.getD_cons_zero,
    List.zip_cons_cons, List.zip_nil_left, List.zipIdx_cons, List.zipIdx_nil, List.mem_cons,
    List.not_mem_nil, or_false, Nat.zero_add] at hp
  obtain rfl | rfl := hp
  · obtain rfl := Option.some.inj hf
    exact ⟨fun hnil => absurd hnil (by decide), fun _ => ⟨keyKept_of_lt (by decide), .num _ _ _ _⟩⟩
  · -- the text is not written, and the item has it
    obtain rfl := Option.some.inj hf
    exact ⟨fun _ => rfl, fun hne => absurd rfl hne⟩

theorem kept_record : Kept .bytes recordSchema false (.message 0)
    (recordSchema.fresh (.message 0)) (.list record) := by
  refine kept_of_fields nofun fun p hp f hf => ?_
  simp only [recordSchema, Schema.message, List.getD_cons_zero, record, List.zip_cons_cons,
    List.zip_nil_left, List.zipIdx_cons, List.zipIdx_nil, List.mem_cons, List.not_mem_nil,
    or_false, Nat.zero_add] at hp
  obtain rfl | rfl | rfl | rfl | rfl | rfl := hp
  all_goals
    obtain rfl := Option.some.inj hf
    refine ⟨fun hnil => absurd hnil (by decide), fun _ => ⟨keyKept_of_lt (by decide), ?_⟩⟩
  · exact .some _ _ _ _ rfl (.num _ _ _ _)
  · refine .items _ _ _ _ rfl rfl ?_ ?_
    · simp only [List.forall_mem_cons]
      exact ⟨rfl, rfl, List.forall_mem_nil _⟩
    · simp only [List.forall_mem_cons]
      exact ⟨.string _ _ _ (by decide), .string _ _ _ (by decide), List.forall_mem_nil _⟩
  · refine .map _ _ _ _ _ rfl (fun x y hxy => ?_) (fun x y hxy => ?_) fun x y hxy => ?_
    · exact (kept_names hxy).1
    · exact (kept_names hxy).2.1
    · exact (kept_names hxy).2.2
  · exact kept_item
  · exact .string _ _ _ (by decide)
  · exact .packed _ _ _ _ rfl rfl (by decide) fun _ hwidth => absurd rfl hwidth

/-- A record comes back. -/
theorem roundTrips_record : RoundTrips .bytes recordSchema 0 (.list record) :=
  roundTrips_of_kept valid_recordSchema hasTy_record sized_record kept_record

/-- `struct { std::optional<int32_t> x; }`. -/
def optionalSchema : Schema :=
  [⟨false, [⟨1, .plain (.optional (.num (.integral .w32 true)))⟩], [.none]⟩]

/-- A zero in an optional is not written. -/
theorem not_roundTrips_optional_zero :
    ¬ RoundTrips .bytes optionalSchema 0 (.list [.some (.num 0)]) := by
  rintro ⟨b, hwritten, hread⟩
  have hnil : toPb optionalSchema 0 (.list [.some (.num 0)]) = some [] := rfl
  obtain rfl := Option.some.inj (hnil.symm.trans hwritten)
  cases hread

end Whole

end Yalantinglibs.Iguana.Pb
