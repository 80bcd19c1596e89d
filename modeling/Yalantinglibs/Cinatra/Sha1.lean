import Mathlib.Data.List.GetD
import Mathlib.Tactic.Common
import Yalantinglibs.Cinatra.Base64
import Yalantinglibs.Data.Sha1

/-!
# The hash of the WebSocket handshake

`cinatra/sha1.hpp` and `build_ws_handshake_head` of `coro_http_connection.hpp`. The hash is computed
in a context that takes the message in parts of any size. It keeps the words of a block in a ring of
sixteen, so that the word of a round is computed in place, and writes the length of the message into
the words of the last block.

## Main definitions

* `transform` — a block
* `Sha1Context`, `update`, `finish` — the hash of a message that comes in parts
* `acceptKey` — the key that the server answers with

## Main results

* `transform_eq` — a block is compressed as the standard says
* `finish_updates` — the hash does not depend on the parts
* `acceptKey_eq` — the key is the one that the client expects
-/

set_option autoImplicit false

namespace Yalantinglibs.Cinatra

open Sha1 (State blockWords hashBlocks)

namespace Sha1Code

/-! ### A block -/

def rol (value bits : UInt32) : UInt32 := (value <<< bits) ||| (value >>> (32 - bits))

def blk (block : List UInt32) (i : ℕ) : UInt32 :=
  rol (block.getD ((i + 13) % 16) 0 ^^^ block.getD ((i + 8) % 16) 0 ^^^ block.getD ((i + 2) % 16) 0 ^^^
    block.getD i 0) 1

/-- What the rounds have in common: `z += f(w, x, y) + block[i] + k + rol(v, 5)` and
`w = rol(w, 30)`. The calls of `transform` name their variables so that each is where the one before
it was; here the values move on instead. -/
def R (f : UInt32 → UInt32 → UInt32 → UInt32) (k : UInt32) (block : List UInt32)
    (s : State) (i : ℕ) :
    State :=
  ⟨s.e + (f s.b s.c s.d + block.getD i 0 + k + rol s.a 5), s.a, rol s.b 30, s.c, s.d⟩

def R0 (block : List UInt32) (s : State) (i : ℕ) : State × List UInt32 :=
  (R (fun w x y => (w &&& (x ^^^ y)) ^^^ y) 0x5a827999 block s i, block)

def R1 (block : List UInt32) (s : State) (i : ℕ) : State × List UInt32 :=
  let block := block.set i (blk block i)
  (R (fun w x y => (w &&& (x ^^^ y)) ^^^ y) 0x5a827999 block s i, block)

def R2 (block : List UInt32) (s : State) (i : ℕ) : State × List UInt32 :=
  let block := block.set i (blk block i)
  (R (fun w x y => w ^^^ x ^^^ y) 0x6ed9eba1 block s i, block)

def R3 (block : List UInt32) (s : State) (i : ℕ) : State × List UInt32 :=
  let block := block.set i (blk block i)
  (R (fun w x y => ((w ||| x) &&& y) ||| (w &&& x)) 0x8f1bbcdc block s i, block)

def R4 (block : List UInt32) (s : State) (i : ℕ) : State × List UInt32 :=
  let block := block.set i (blk block i)
  (R (fun w x y => w ^^^ x ^^^ y) 0xca62c1d6 block s i, block)

/-- The calls of `transform`: sixteen of `R0`, four of `R1`, and twenty of each of the others, with
the words of the ring in turn. -/
def call (p : State × List UInt32) (t : ℕ) : State × List UInt32 :=
  (if t < 16 then R0 else if t < 20 then R1 else if t < 40 then R2 else if t < 60 then R3 else R4)
    p.2 p.1 (t % 16)

/-- `transform`: the digest and the block behind it. -/
def transform (digest : State) (block : List UInt32) : State × List UInt32 :=
  let (s, block) := (List.range 80).foldl call (digest, block)
  (⟨digest.a + s.a, digest.b + s.b, digest.c + s.c, digest.d + s.d, digest.e + s.e⟩, block)

/-- A word of `make_block`. -/
def makeWord (p : Bytes) (i : ℕ) : UInt32 :=
  (p.getD (4 * i + 3) 0).toUInt32 ||| (p.getD (4 * i + 2) 0).toUInt32 <<< 8 |||
    (p.getD (4 * i + 1) 0).toUInt32 <<< 16 ||| (p.getD (4 * i) 0).toUInt32 <<< 24

/-- `make_block`. -/
def makeBlock (p : Bytes) : List UInt32 := (List.range 16).map (makeWord p)

/-! ### The context -/

/-- `sha1_context`. -/
structure Sha1Context where
  buflen : ℕ
  blocks : ℕ
  digest : State
  buf : Bytes

/-- `init`: the bytes of the buffer are what they were. -/
def init (junk : Fin 64 → UInt8) : Sha1Context :=
  ⟨0, 0, ⟨0x67452301, 0xefcdab89, 0x98badcfe, 0x10325476, 0xc3d2e1f0⟩, List.ofFn junk⟩

/-- `memcpy` into an array. -/
def memcpy (buf : Bytes) (at' : ℕ) (p : Bytes) : Bytes :=
  buf.take at' ++ p ++ buf.drop (at' + p.length)

/-- `update`: a round of the loop copies what fits, and goes on behind a full buffer. -/
def update (ctx : Sha1Context) (message : Bytes) : Sha1Context :=
  let n := min message.length (64 - ctx.buflen)
  let ctx' := { ctx with
    buf := memcpy ctx.buf ctx.buflen (message.take n)
    buflen := ctx.buflen + n }
  if ctx.buflen + n ≠ 64 then ctx'
  else
    update { ctx' with
      buflen := 0
      digest := (transform ctx.digest (makeBlock ctx'.buf)).1
      blocks := (ctx.blocks + 1) % 2 ^ 64 } (message.drop n)
termination_by (message.length, ctx.buflen)
decreasing_by
  rw [List.length_drop]
  by_cases hn : min message.length (64 - ctx.buflen) = 0
  · rw [hn, Nat.sub_zero]
    exact Prod.Lex.right _ (by omega)
  · exact Prod.Lex.left _ _ (by omega)

/-- The four bytes of a word of the digest. -/
def digestBytes (w : UInt32) : Bytes :=
  [((w >>> 24) &&& 0xff).toUInt8, ((w >>> 16) &&& 0xff).toUInt8, ((w >>> 8) &&& 0xff).toUInt8,
    (w &&& 0xff).toUInt8]

/-- `finish`: the bytes of the digest. -/
def finish (ctx : Sha1Context) : Bytes :=
  let totalBits := (ctx.blocks * 64 + ctx.buflen) * 8 % 2 ^ 64
  let buf := ctx.buf.set ctx.buflen 0x80
  let buflen := ctx.buflen + 1
  let buf := memcpy buf buflen (List.replicate (64 - buflen) 0)
  let block := makeBlock buf
  let (digest, block) :=
    if buflen > 56 then
      let (digest, block) := transform ctx.digest block
      (digest, List.replicate 14 0 ++ block.drop 14)
    else (ctx.digest, block)
  let block := block.set 15 (UInt32.ofNat (totalBits % 2 ^ 32))
  let block := block.set 14 (UInt32.ofNat (totalBits / 2 ^ 32))
  let (digest, _) := transform digest block
  digestBytes digest.a ++ digestBytes digest.b ++ digestBytes digest.c ++ digestBytes digest.d ++
    digestBytes digest.e

section Transform

variable {block ring : List UInt32} {s : State} {t : ℕ}

theorem choose_eq (x y z : UInt32) : (x &&& (y ^^^ z)) ^^^ z = Sha1.choose x y z := by
  apply UInt32.toBitVec_inj.mp
  apply BitVec.eq_of_getLsbD_eq
  intro i hi
  simp only [Sha1.choose, UInt32.toBitVec_xor, UInt32.toBitVec_and, UInt32.toBitVec_not,
    BitVec.getLsbD_xor, BitVec.getLsbD_and, BitVec.getLsbD_not, hi, decide_true, Bool.true_and]
  cases x.toBitVec.getLsbD i <;> cases y.toBitVec.getLsbD i <;> cases z.toBitVec.getLsbD i <;> rfl

theorem majority_eq (x y z : UInt32) : ((x ||| y) &&& z) ||| (x &&& y) = Sha1.majority x y z := by
  apply UInt32.toBitVec_inj.mp
  apply BitVec.eq_of_getLsbD_eq
  intro i _
  simp only [Sha1.majority, UInt32.toBitVec_xor, UInt32.toBitVec_and, UInt32.toBitVec_or,
    BitVec.getLsbD_xor, BitVec.getLsbD_and, BitVec.getLsbD_or]
  cases x.toBitVec.getLsbD i <;> cases y.toBitVec.getLsbD i <;> cases z.toBitVec.getLsbD i <;> rfl

/-- The ring before a round: the words of the block, or of the sixteen rounds before. -/
structure Ring (block : List UInt32) (t : ℕ) (ring : List UInt32) : Prop where
  length : ring.length = 16
  words : ∀ r, r < max t 16 → max t 16 ≤ r + 16 → ring.getD (r % 16) 0 = Sha1.schedule block r

theorem ring_zero (h : block.length = 16) : Ring block 0 block := by
  refine ⟨h, fun r hlt _ => ?_⟩
  have hlt' : r < 16 := by omega
  rw [Nat.mod_eq_of_lt hlt', Sha1.schedule_block hlt']

/-- Among the rounds that read the block as it is nothing changes. -/
theorem Ring.early (h : Ring block t ring) (ht : t < 16) :
    Ring block (t + 1) ring ∧ ring.getD (t % 16) 0 = Sha1.schedule block t := by
  refine ⟨⟨h.length, fun r hlt hle => h.words r (by omega) (by omega)⟩, ?_⟩
  exact h.words t (by omega) (by omega)

/-- Later the oldest word makes room for the next one. -/
theorem Ring.later (h : Ring block t ring) (ht : 16 ≤ t) :
    Ring block (t + 1) (ring.set (t % 16) (blk ring (t % 16))) ∧
      (ring.set (t % 16) (blk ring (t % 16))).getD (t % 16) 0 = Sha1.schedule block t := by
  have hword (d : ℕ) (hd : 1 ≤ d) (hd' : d ≤ 16) (i : ℕ) (hi : i = (t - d) % 16) :
      ring.getD i 0 = Sha1.schedule block (t - d) := by
    rw [hi]
    exact h.words (t - d) (by omega) (by omega)
  have hblk : blk ring (t % 16) = Sha1.schedule block t := by
    rw [Sha1.schedule_later ht, blk, hword 3 (by decide) (by decide) _ (by omega),
      hword 8 (by decide) (by decide) _ (by omega), hword 14 (by decide) (by decide) _ (by omega),
      hword 16 (by decide) (by decide) _ (by omega)]
    rfl
  have hlt : t % 16 < ring.length := by
    have := h.length
    omega
  have hself : (ring.set (t % 16) (blk ring (t % 16))).getD (t % 16) 0 = Sha1.schedule block t := by
    rw [List.getD_eq_getElem?_getD, List.getElem?_set_self hlt]
    exact hblk
  refine ⟨⟨(List.length_set ..).trans h.length, fun r hr hle => ?_⟩, hself⟩
  by_cases hrt : r = t
  · rw [hrt]
    exact hself
  · rw [List.getD_eq_getElem?_getD, List.getElem?_set_ne (by omega), ← List.getD_eq_getElem?_getD]
    exact h.words r (by omega) (by omega)

/-- The sum of a round, in the order of the code. -/
theorem R_eq {f : UInt32 → UInt32 → UInt32 → UInt32} {k : UInt32}
    (hword : ring.getD (t % 16) 0 = Sha1.schedule block t)
    (hf : f s.b s.c s.d = Sha1.mix t s.b s.c s.d)
    (hk : k = Sha1.constant t) : R f k ring s (t % 16) = Sha1.round block s t := by
  rw [R, Sha1.round, hword, hf, hk]
  congr 1
  change s.e + (_ + _ + _ + Sha1.rotl s.a 5) = _
  ac_rfl

/-- A call is a round, and keeps the ring. -/
theorem call_eq (h : Ring block t ring) (ht : t < 80) :
    ∃ ring', call (s, ring) t = (Sha1.round block s t, ring') ∧ Ring block (t + 1) ring' := by
  by_cases h₀ : t < 16
  · obtain ⟨hring, hword⟩ := h.early h₀
    refine ⟨ring, ?_, hring⟩
    rw [call, if_pos h₀, R0]
    exact congrArg (·, ring) (R_eq hword
      ((choose_eq _ _ _).trans (by rw [Sha1.mix, if_pos (by omega)]))
      (by rw [Sha1.constant, if_pos (by omega)]))
  · obtain ⟨hring, hword⟩ := h.later (Nat.not_lt.mp h₀)
    refine ⟨_, ?_, hring⟩
    rw [call, if_neg h₀]
    dsimp only
    by_cases h₁ : t < 20
    · rw [if_pos h₁, R1]
      exact congrArg (·, _) (R_eq hword
        ((choose_eq _ _ _).trans (by rw [Sha1.mix, if_pos h₁])) (by rw [Sha1.constant, if_pos h₁]))
    · rw [if_neg h₁]
      by_cases h₂ : t < 40
      · rw [if_pos h₂, R2]
        exact congrArg (·, _) (R_eq hword
          (by rw [Sha1.mix, if_neg h₁, if_pos h₂]; rfl)
          (by rw [Sha1.constant, if_neg h₁, if_pos h₂]))
      · rw [if_neg h₂]
        by_cases h₃ : t < 60
        · rw [if_pos h₃, R3]
          exact congrArg (·, _) (R_eq hword
            ((majority_eq _ _ _).trans (by rw [Sha1.mix, if_neg h₁, if_neg h₂, if_pos h₃]))
            (by rw [Sha1.constant, if_neg h₁, if_neg h₂, if_pos h₃]))
        · rw [if_neg h₃, R4]
          exact congrArg (·, _) (R_eq hword
            (by rw [Sha1.mix, if_neg h₁, if_neg h₂, if_neg h₃]; rfl)
            (by rw [Sha1.constant, if_neg h₁, if_neg h₂, if_neg h₃]))

/-- The first calls are the first rounds. -/
theorem calls_eq (h : block.length = 16) (n : ℕ) (hn : n ≤ 80) :
    ∃ ring, (List.range n).foldl call (s, block) =
      ((List.range n).foldl (Sha1.round block) s, ring) ∧
      Ring block n ring := by
  induction n with
  | zero => exact ⟨block, rfl, ring_zero h⟩
  | succ n ih =>
    obtain ⟨ring, heq, hring⟩ := ih (by omega)
    obtain ⟨ring', hcall, hring'⟩ := call_eq hring (by omega)
    refine ⟨ring', ?_, hring'⟩
    rw [List.range_succ, List.foldl_append, List.foldl_append, heq]
    exact hcall

/-- A block is compressed as the standard says. -/
theorem transform_eq (h : block.length = 16) :
    (transform s block).1 = Sha1.compress s block ∧ (transform s block).2.length = 16 := by
  obtain ⟨ring, heq, hring⟩ := calls_eq (s := s) h 80 le_rfl
  rw [transform, heq]
  exact ⟨rfl, hring.length⟩

end Transform

section Words

variable {p : Bytes}

/-- Bytes that are shifted to their places are added up. -/
theorem or_shift_eq_word (a b c d : UInt8) :
    d.toUInt32 ||| c.toUInt32 <<< 8 ||| b.toUInt32 <<< 16 ||| a.toUInt32 <<< 24 =
      Sha1.word a b c d := by
  have ha := a.toNat_lt
  have hb := b.toNat_lt
  have hc := c.toNat_lt
  have hd := d.toNat_lt
  have hor (i low high : ℕ) (hlow : low < 2 ^ i) : low ||| 2 ^ i * high = 2 ^ i * high + low := by
    rw [Nat.or_comm, ← Nat.two_pow_add_eq_or_of_lt hlow]
  apply UInt32.toNat_inj.mp
  simp only [Sha1.word, UInt32.toNat_or, UInt32.toNat_shiftLeft, UInt8.toNat_toUInt32,
    UInt32.toNat_ofNat', UInt32.reduceToNat, Nat.shiftLeft_eq, Nat.mul_comm _ (2 ^ _)]
  rw [Nat.mod_eq_of_lt (show 2 ^ 8 * c.toNat < 2 ^ 32 by omega),
    Nat.mod_eq_of_lt (show 2 ^ 16 * b.toNat < 2 ^ 32 by omega),
    Nat.mod_eq_of_lt (show 2 ^ 24 * a.toNat < 2 ^ 32 by omega), hor 8 _ _ hd, hor 16 _ _ (by omega),
    hor 24 _ _ (by omega)]
  omega

theorem makeBlock_eq (h : p.length = 64) : makeBlock p = blockWords p := by
  apply List.ext_getElem?
  intro i
  by_cases hi : i < 16
  · rw [Sha1.getElem?_blockWords p (by omega), makeBlock, List.getElem?_map, List.getElem?_range hi,
      Option.map_some, makeWord, or_shift_eq_word]
  · rw [List.getElem?_eq_none, List.getElem?_eq_none]
    · rw [Sha1.length_blockWords, h]
      omega
    · rw [makeBlock, List.length_map, List.length_range]
      omega

theorem length_makeBlock : (makeBlock p).length = 16 := by
  rw [makeBlock, List.length_map, List.length_range]

theorem digestBytes_eq (w : UInt32) : digestBytes w = Sha1.wordBytes w := by
  have hand (n : ℕ) : n &&& 255 = n % 256 := Nat.and_two_pow_sub_one_eq_mod n 8
  have hbyte (x : UInt32) (n : ℕ) (h : x.toNat = n) : ((x &&& 0xff).toUInt8) = UInt8.ofNat n := by
    apply UInt8.toNat_inj.mp
    rw [UInt32.toNat_toUInt8, UInt32.toNat_and, UInt8.toNat_ofNat', h]
    change (n &&& 255) % 256 = n % 256
    rw [hand, Nat.mod_mod]
  rw [digestBytes, Sha1.wordBytes, hbyte _ (w.toNat / 2 ^ 24), hbyte _ (w.toNat / 2 ^ 16),
    hbyte _ (w.toNat / 2 ^ 8), hbyte _ w.toNat rfl]
  all_goals rw [UInt32.toNat_shiftRight, Nat.shiftRight_eq_div_pow]; rfl

end Words

section Parts

variable {buf p message : Bytes} {ctx : Sha1Context} {n : ℕ}

theorem length_memcpy (h : n + p.length ≤ buf.length) : (memcpy buf n p).length = buf.length := by
  rw [memcpy, List.length_append, List.length_append, List.length_take, List.length_drop]
  omega

theorem take_memcpy (h : n + p.length ≤ buf.length) :
    (memcpy buf n p).take (n + p.length) = buf.take n ++ p := by
  rw [memcpy]
  refine List.take_left' ?_
  rw [List.length_append, List.length_take]
  omega

/-- The context stands for a message: the blocks that are hashed, and what is in the buffer. -/
structure Represents (ctx : Sha1Context) (message : Bytes) : Prop where
  buflen : ctx.buflen < 64
  length : ctx.buf.length = 64
  whole : ∃ n whole, whole.length = 64 * n ∧ ctx.digest = hashBlocks Sha1.initial whole ∧
    ctx.blocks = n % 2 ^ 64 ∧ message = whole ++ ctx.buf.take ctx.buflen

theorem represents_init (junk : Fin 64 → UInt8) : Represents (init junk) [] where
  buflen := Nat.zero_lt_succ 63
  length := List.length_ofFn
  whole := ⟨0, [], rfl, Sha1.hashBlocks_nil.symm, rfl, rfl⟩

/-- What fits is copied. -/
theorem Represents.copy (h : Represents ctx message) (hfits : ctx.buflen + p.length < 64) :
    Represents { ctx with buf := memcpy ctx.buf ctx.buflen p, buflen := ctx.buflen + p.length }
      (message ++ p) := by
  obtain ⟨-, hlength, m, whole, hwhole, hdigest, hblocks, rfl⟩ := h
  have hle : ctx.buflen + p.length ≤ ctx.buf.length := by omega
  refine ⟨hfits, (length_memcpy hle).trans hlength, m, whole, hwhole, hdigest, hblocks, ?_⟩
  rw [take_memcpy hle, List.append_assoc]

/-- A buffer that gets full is hashed. -/
theorem Represents.fill (h : Represents ctx message) (hfull : ctx.buflen + p.length = 64) :
    Represents
      ⟨0, (ctx.blocks + 1) % 2 ^ 64,
        (transform ctx.digest (makeBlock (memcpy ctx.buf ctx.buflen p))).1,
        memcpy ctx.buf ctx.buflen p⟩ (message ++ p) := by
  obtain ⟨-, hlength, m, whole, hwhole, hdigest, hblocks, rfl⟩ := h
  have hle : ctx.buflen + p.length ≤ ctx.buf.length := by omega
  have hlength' := (length_memcpy hle).trans hlength
  have hbuf : memcpy ctx.buf ctx.buflen p = ctx.buf.take ctx.buflen ++ p := by
    rw [← take_memcpy hle]
    exact (List.take_of_length_le (by omega)).symm
  rw [List.append_assoc, ← hbuf]
  refine ⟨by dsimp only; omega, hlength', m + 1, whole ++ memcpy ctx.buf ctx.buflen p,
    ?_, ?_, ?_, ?_⟩
  · rw [List.length_append, hlength', hwhole]
    omega
  · dsimp only
    rw [(transform_eq length_makeBlock).1, makeBlock_eq hlength', Sha1.hashBlocks_append m hwhole,
      ← hdigest, ← List.append_nil (memcpy _ _ _), Sha1.hashBlocks_block hlength',
      Sha1.hashBlocks_nil, List.append_nil]
  · dsimp only
    rw [hblocks]
    omega
  · rw [List.take_zero, List.append_nil]

/-- A part of the message is taken in. -/
theorem Represents.update (h : Represents ctx message) (part : Bytes) :
    Represents (update ctx part) (message ++ part) := by
  refine Sha1Code.update.induct
    (fun ctx part => ∀ message, Represents ctx message →
      Represents (Sha1Code.update ctx part) (message ++ part)) ?fits ?full ctx part message h
  case fits =>
    intro ctx part n hne message h
    have hbuflen := h.buflen
    have hn : n = part.length := by omega
    rw [Sha1Code.update, if_pos hne]
    change Represents { ctx with buf := memcpy ctx.buf ctx.buflen (part.take n),
                                 buflen := ctx.buflen + n } _
    rw [List.take_of_length_le hn.ge, hn]
    exact h.copy (by omega)
  case full =>
    intro ctx part n ctx' hfull ih message h
    have hbuflen := h.buflen
    have htake : (part.take n).length = n := by
      rw [List.length_take]
      omega
    have hfill := ih _ (h.fill (p := part.take n) (by omega))
    rw [List.append_assoc, List.take_append_drop] at hfill
    rw [Sha1Code.update, if_neg hfull]
    exact hfill

end Parts

section Finish

variable {ctx : Sha1Context} {s : State} {words two : List UInt32} {hi lo : UInt32} {buf m : Bytes}
  {n : ℕ}

/-- The words of the length are written behind the others. -/
theorem set_length (hwords : words.length = 14) (htwo : two.length = 2) :
    ((words ++ two).set 15 lo).set 14 hi = words ++ [hi, lo] := by
  obtain ⟨x, y, rfl⟩ := List.length_eq_two.mp htwo
  rw [List.set_append_right _ _ (by omega), List.set_append_right _ _ (by omega), hwords]
  rfl

/-- The words of a block that ends with the length. -/
theorem blockWords_lengthField (h : buf.length = 56) :
    blockWords (buf ++ Sha1.lengthField n) =
      blockWords buf ++ [UInt32.ofNat (8 * n / 2 ^ 32), UInt32.ofNat (8 * n)] := by
  rw [Sha1.blockWords_append _ _ (by omega), Sha1.lengthField, Sha1.blockWords_wordBytes,
    ← List.append_nil (Sha1.wordBytes (UInt32.ofNat (8 * n))), Sha1.blockWords_wordBytes]
  rfl

/-- A counter of 64 bits has the bits of the length. -/
theorem totalBits_words (n k : ℕ) :
    let totalBits := (n % 2 ^ 64 * 64 + k) * 8 % 2 ^ 64
    UInt32.ofNat (totalBits / 2 ^ 32) = UInt32.ofNat (8 * (64 * n + k) / 2 ^ 32) ∧
      UInt32.ofNat (totalBits % 2 ^ 32) = UInt32.ofNat (8 * (64 * n + k)) := by
  intro totalBits
  have hbits : totalBits = 8 * (64 * n + k) % 2 ^ 64 := by omega
  constructor
  all_goals
    apply UInt32.toNat_inj.mp
    rw [UInt32.toNat_ofNat', UInt32.toNat_ofNat', hbits]
    omega

/-- The bit behind the message, and zeros to the end of the buffer. -/
theorem memcpy_set (hlength : buf.length = 64) (hn : n < 64) :
    memcpy (buf.set n 0x80) (n + 1) (List.replicate (64 - (n + 1)) 0) =
      buf.take n ++ 0x80 :: List.replicate (63 - n) 0 := by
  have hset : (buf.set n 0x80).take (n + 1) = buf.take n ++ [0x80] := by
    rw [List.set_eq_take_append_cons_drop, if_pos (by omega)]
    change (buf.take n ++ ([0x80] ++ buf.drop (n + 1))).take (n + 1) = _
    rw [← List.append_assoc]
    refine List.take_left' ?_
    rw [List.length_append, List.length_take, List.length_singleton]
    omega
  have hdrop : (buf.set n 0x80).drop (n + 1 + (List.replicate (64 - (n + 1)) (0 : UInt8)).length) = [] := by
    apply List.drop_of_length_le
    rw [List.length_set, List.length_replicate]
    omega
  rw [memcpy, hdrop, hset, List.append_nil, List.append_assoc, Nat.sub_add_eq, Nat.sub_right_comm]
  rfl

/-- The block that ends with the length is hashed. -/
theorem transform_last (hbuf : buf.length = 56) (htwo : two.length = 2)
    (hhi : hi = UInt32.ofNat (8 * n / 2 ^ 32)) (hlo : lo = UInt32.ofNat (8 * n)) :
    (transform s (((blockWords buf ++ two).set 15 lo).set 14 hi)).1 =
      hashBlocks s (buf ++ Sha1.lengthField n) := by
  have hwords : (blockWords buf).length = 14 := by
    rw [Sha1.length_blockWords, hbuf]
  have hblock : (buf ++ Sha1.lengthField n).length = 64 := by
    rw [List.length_append, hbuf, Sha1.length_lengthField]
  rw [set_length hwords htwo, hhi, hlo, ← blockWords_lengthField hbuf, (transform_eq ?_).1,
    ← List.append_nil (buf ++ Sha1.lengthField n), Sha1.hashBlocks_block hblock,
      Sha1.hashBlocks_nil, List.append_nil]
  rw [Sha1.length_blockWords, hblock]

/-- The last block or the last two blocks are those of the standard. -/
theorem finish_eq (h : Represents ctx m) : finish ctx = Sha1.hash m := by
  obtain ⟨hbuflen, hlength, n, whole, hwhole, hdigest, hblocks, rfl⟩ := h
  have htail : (ctx.buf.take ctx.buflen).length = ctx.buflen := by
    rw [List.length_take]
    omega
  have hm : (whole ++ ctx.buf.take ctx.buflen).length = 64 * n + ctx.buflen := by
    rw [List.length_append, hwhole, htail]
  obtain ⟨hhi, hlo⟩ := totalBits_words n ctx.buflen
  rw [← hblocks] at hhi hlo
  have hmemcpy := memcpy_set hlength hbuflen
  have hlast : (ctx.buf.take ctx.buflen ++ 0x80 :: List.replicate (63 - ctx.buflen) 0).length = 64 := by
    rw [List.length_append, htail, List.length_cons, List.length_replicate]
    omega
  have hmod : (64 * n + ctx.buflen) % 64 = ctx.buflen := by omega
  rw [Sha1.hash, hm, List.append_assoc, Sha1.hashBlocks_append n hwhole, ← hdigest,
    Sha1.padding, hmod, finish, Sha1.digest]
  simp only [digestBytes_eq]
  rw [hmemcpy, makeBlock_eq hlast]
  by_cases hroom : ctx.buflen + 1 > 56
  · -- the length goes into a block of its own
    have hfourteen : List.replicate 14 (0 : UInt32) = blockWords (List.replicate 56 0) := rfl
    have hwords : (blockWords
        (ctx.buf.take ctx.buflen ++ 0x80 :: List.replicate (63 - ctx.buflen) 0)).length = 16 := by
      rw [Sha1.length_blockWords, hlast]
    obtain ⟨htransform, hring⟩ := transform_eq (s := ctx.digest) hwords
    have hsplit : ctx.buf.take ctx.buflen ++ (0x80 :: List.replicate ((119 - ctx.buflen) % 64) 0 ++
        Sha1.lengthField (64 * n + ctx.buflen)) =
          (ctx.buf.take ctx.buflen ++ 0x80 :: List.replicate (63 - ctx.buflen) 0) ++
            (List.replicate 56 0 ++ Sha1.lengthField (64 * n + ctx.buflen)) := by
      have hzeros : (119 - ctx.buflen) % 64 = 63 - ctx.buflen + 56 := by omega
      rw [hzeros, List.replicate_add, List.append_assoc, List.cons_append, List.cons_append,
        List.append_assoc]
    rw [if_pos hroom, hfourteen]
    dsimp only
    rw [transform_last (List.length_replicate ..) ?two hhi hlo, hsplit, Sha1.hashBlocks_block hlast,
      htransform]
    case two => rw [List.length_drop, hring]
  · -- there is room behind the message
    have hsplit : ctx.buf.take ctx.buflen ++ 0x80 :: List.replicate (63 - ctx.buflen) 0 =
        (ctx.buf.take ctx.buflen ++ 0x80 :: List.replicate (55 - ctx.buflen) 0) ++
          List.replicate 8 0 := by
      have hzeros : 63 - ctx.buflen = 55 - ctx.buflen + 8 := by omega
      rw [hzeros, List.replicate_add, List.append_assoc, List.cons_append]
    have hroom' : (ctx.buf.take ctx.buflen ++ 0x80 :: List.replicate (55 - ctx.buflen) 0).length =
        56 := by
      rw [List.length_append, htail, List.length_cons, List.length_replicate]
      omega
    have hzeros : (119 - ctx.buflen) % 64 = 55 - ctx.buflen := by omega
    rw [if_neg hroom, hzeros, hsplit, Sha1.blockWords_append _ _ (by omega),
      ← List.append_assoc (ctx.buf.take ctx.buflen)]
    dsimp only
    rw [transform_last hroom' rfl hhi hlo]

end Finish

section Updates

/-- The parts of a message are taken in one after the other. -/
theorem Represents.updates {ctx : Sha1Context} {m : Bytes} (h : Represents ctx m)
    (parts : List Bytes) :
    Represents (parts.foldl Sha1Code.update ctx) (m ++ parts.flatten) := by
  induction parts generalizing ctx m with
  | nil =>
    rw [List.flatten_nil, List.append_nil]
    exact h
  | cons part parts ih =>
    rw [List.flatten_cons, ← List.append_assoc]
    exact ih (h.update part)

/-- However the message is cut into parts, and whatever lies in the buffer before, the hash is the
one of the standard. -/
theorem finish_updates (junk : Fin 64 → UInt8) (parts : List Bytes) :
    finish (parts.foldl update (init junk)) = Sha1.hash parts.flatten :=
  finish_eq ((represents_init junk).updates parts)

end Updates

end Sha1Code

/-- `ws_guid`. -/
def wsGuid : Bytes := ascii "258EAFA5-E914-47DA-95CA-C5AB0DC85B11"

/-- The value of `Sec-WebSocket-Accept` that `build_ws_handshake_head` computes: the first 24 bytes
of the key of the client stand before `ws_guid` in `key_src`. -/
def acceptKey (junk : Fin 64 → UInt8) (key : Bytes) : Bytes :=
  let keySrc := key.take 24 ++ wsGuid
  let sha1buf := Sha1Code.finish (Sha1Code.update (Sha1Code.init junk) keySrc)
  (CodeUtils.base64Encode false sha1buf).take 28

/-- A server answers a key of 24 characters with what RFC 6455 asks for. -/
theorem acceptKey_eq (junk : Fin 64 → UInt8) {key : Bytes} (h : key.length = 24) :
    acceptKey junk key = standard.encode true (Sha1.hash (key ++ wsGuid)) := by
  have hfinish := Sha1Code.finish_eq ((Sha1Code.represents_init junk).update (key ++ wsGuid))
  rw [acceptKey, List.take_of_length_le h.le, hfinish, List.nil_append, CodeUtils.base64Encode_eq]
  apply List.take_of_length_le
  change (standard.encode true _).length ≤ 28
  rw [standard.length_encode, Sha1.hash, Sha1.length_digest]

theorem acceptKey_eq_sample :
    acceptKey (fun _ => 0) (ascii "dGhlIHNhbXBsZSBub25jZQ==") =
      standard.encode true (Sha1.hash (ascii "dGhlIHNhbXBsZSBub25jZQ==" ++ wsGuid)) :=
  acceptKey_eq (fun _ => 0) (by rw [ascii_ofList]; rfl)

end Yalantinglibs.Cinatra
