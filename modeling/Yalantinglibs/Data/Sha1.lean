import Mathlib.Tactic.Common
import Yalantinglibs.Data.ByteCodec

/-!
# SHA-1

The hash function as the standard states it: the message is padded to whole blocks, each block is
expanded to the words of eighty rounds, and the chaining value goes through the rounds. The length
of the message is taken modulo `2 ^ 64`.

## Main definitions

* `schedule` — the word of a round
* `compress` — a block
* `hash` — a message

## Main results

* `blockWords_wordBytes` — the words that are written as bytes are read back
* `hashBlocks_append` — whole blocks come one after the other
-/

set_option autoImplicit false

namespace Yalantinglibs.Sha1

/-- Five words. -/
@[ext] structure State where
  a : UInt32
  b : UInt32
  c : UInt32
  d : UInt32
  e : UInt32
deriving DecidableEq

/-- The chaining value that a message begins with. -/
def initial : State := ⟨0x67452301, 0xefcdab89, 0x98badcfe, 0x10325476, 0xc3d2e1f0⟩

def rotl (x n : UInt32) : UInt32 := (x <<< n) ||| (x >>> (32 - n))

def choose (x y z : UInt32) : UInt32 := (x &&& y) ^^^ (~~~x &&& z)

def parity (x y z : UInt32) : UInt32 := x ^^^ y ^^^ z

def majority (x y z : UInt32) : UInt32 := (x &&& y) ^^^ (x &&& z) ^^^ (y &&& z)

/-- The function of a round. -/
def mix (t : ℕ) : UInt32 → UInt32 → UInt32 → UInt32 :=
  if t < 20 then choose else if t < 40 then parity else if t < 60 then majority else parity

/-- The constant of a round. -/
def constant (t : ℕ) : UInt32 :=
  if t < 20 then 0x5a827999 else if t < 40 then 0x6ed9eba1 else if t < 60 then 0x8f1bbcdc
  else 0xca62c1d6

/-- The word of a round: those of the block first, then each from four before it. -/
def schedule (block : List UInt32) (t : ℕ) : UInt32 :=
  if _ : t < 16 then block.getD t 0
  else
    rotl (schedule block (t - 3) ^^^ schedule block (t - 8) ^^^ schedule block (t - 14) ^^^
      schedule block (t - 16)) 1
termination_by t

/-- A round. -/
def round (block : List UInt32) (s : State) (t : ℕ) : State :=
  ⟨rotl s.a 5 + mix t s.b s.c s.d + s.e + constant t + schedule block t, s.a, rotl s.b 30, s.c, s.d⟩

/-- The eighty rounds, and the addition of the chaining value. -/
def compress (s : State) (block : List UInt32) : State :=
  let r := (List.range 80).foldl (round block) s
  ⟨s.a + r.a, s.b + r.b, s.c + r.c, s.d + r.d, s.e + r.e⟩

/-- The word of four bytes, the most significant byte first. -/
def word (p q r s : UInt8) : UInt32 :=
  UInt32.ofNat (p.toNat * 2 ^ 24 + q.toNat * 2 ^ 16 + r.toNat * 2 ^ 8 + s.toNat)

/-- The bytes of a word. -/
def wordBytes (w : UInt32) : Bytes :=
  [UInt8.ofNat (w.toNat / 2 ^ 24), UInt8.ofNat (w.toNat / 2 ^ 16), UInt8.ofNat (w.toNat / 2 ^ 8),
    UInt8.ofNat w.toNat]

/-- The words of some bytes, four by four. -/
def blockWords : Bytes → List UInt32
  | p :: q :: r :: s :: rest => word p q r s :: blockWords rest
  | _ => []

/-- The chaining value behind the whole blocks of a message. -/
def hashBlocks (s : State) (message : Bytes) : State :=
  if 64 ≤ message.length then
    hashBlocks (compress s (blockWords (message.take 64))) (message.drop 64)
  else s
termination_by message.length
decreasing_by
  rw [List.length_drop]
  omega

/-- The number of bits, in eight bytes. -/
def lengthField (n : ℕ) : Bytes :=
  wordBytes (UInt32.ofNat (8 * n / 2 ^ 32)) ++ wordBytes (UInt32.ofNat (8 * n))

/-- What comes behind a message of `n` bytes. -/
def padding (n : ℕ) : Bytes :=
  0x80 :: List.replicate ((119 - n % 64) % 64) 0 ++ lengthField n

/-- The bytes of a chaining value. -/
def digest (s : State) : Bytes :=
  wordBytes s.a ++ wordBytes s.b ++ wordBytes s.c ++ wordBytes s.d ++ wordBytes s.e

/-- The hash of a message. -/
def hash (message : Bytes) : Bytes :=
  digest (hashBlocks initial (message ++ padding message.length))

section Schedule

variable {block : List UInt32} {t : ℕ}

theorem schedule_block (h : t < 16) : schedule block t = block.getD t 0 := by
  rw [schedule, dif_pos h]

theorem schedule_later (h : 16 ≤ t) :
    schedule block t = rotl (schedule block (t - 3) ^^^ schedule block (t - 8) ^^^
      schedule block (t - 14) ^^^ schedule block (t - 16)) 1 := by
  rw [schedule, dif_neg (Nat.not_lt.mpr h)]

end Schedule

section Words

variable (w : UInt32) (bytes rest : Bytes)

/-- A word that is written as bytes is read back. -/
theorem blockWords_wordBytes : blockWords (wordBytes w ++ rest) = w :: blockWords rest := by
  have hw := w.toNat_lt
  change word _ _ _ _ :: blockWords rest = _
  congr 1
  apply UInt32.toNat_inj.mp
  rw [word, UInt32.toNat_ofNat']
  simp only [UInt8.toNat_ofNat', Nat.reducePow]
  omega

/-- What is left has less than four bytes. -/
theorem length_lt_of_rest
    (h : ∀ p q r s more, bytes = p :: q :: r :: s :: more → False) : bytes.length < 4 := by
  obtain _ | ⟨p, _ | ⟨q, _ | ⟨r, _ | ⟨s, more⟩⟩⟩⟩ := bytes
  · exact Nat.succ_pos 3
  · exact Nat.one_lt_succ_succ 2
  · exact Nat.lt_add_of_pos_right Nat.two_pos
  · exact Nat.lt_succ_self 3
  · exact (h p q r s more rfl).elim

theorem length_blockWords : (blockWords bytes).length = bytes.length / 4 := by
  induction bytes using blockWords.induct with
  | case1 p q r s more ih =>
    rw [blockWords, List.length_cons, ih]
    simp only [List.length_cons]
    omega
  | case2 bytes hshort =>
    have hlt := length_lt_of_rest bytes hshort
    rw [blockWords, List.length_nil]
    · omega
    · exact hshort

theorem blockWords_append (h : 4 ∣ bytes.length) :
    blockWords (bytes ++ rest) = blockWords bytes ++ blockWords rest := by
  induction bytes using blockWords.induct with
  | case1 p q r s more ih =>
    have hmore : 4 ∣ more.length := by
      simp only [List.length_cons] at h
      omega
    rw [List.cons_append, List.cons_append, List.cons_append, List.cons_append,
      blockWords, ih hmore]
    rfl
  | case2 bytes hshort =>
    have hlt := length_lt_of_rest bytes hshort
    obtain rfl : bytes = [] := List.eq_nil_of_length_eq_zero (by omega)
    rfl

/-- The words one by one. -/
theorem getElem?_blockWords {i : ℕ} (h : 4 * i + 3 < bytes.length) :
    (blockWords bytes)[i]? = some (word (bytes.getD (4 * i) 0) (bytes.getD (4 * i + 1) 0)
      (bytes.getD (4 * i + 2) 0) (bytes.getD (4 * i + 3) 0)) := by
  induction bytes using blockWords.induct generalizing i with
  | case1 p q r s more ih =>
    rw [blockWords]
    cases i with
    | zero => rfl
    | succ i =>
      rw [List.getElem?_cons_succ, ih (by simp only [List.length_cons] at h; omega)]
      rfl
  | case2 bytes hshort =>
    have hlt := length_lt_of_rest bytes hshort
    omega

theorem length_lengthField (n : ℕ) : (lengthField n).length = 8 := rfl

theorem length_digest (s : State) : (digest s).length = 20 := rfl

end Words

section Blocks

variable {s : State} {block message rest : Bytes}

/-- A block comes first. -/
theorem hashBlocks_block (h : block.length = 64) :
    hashBlocks s (block ++ rest) = hashBlocks (compress s (blockWords block)) rest := by
  have hle : 64 ≤ (block ++ rest).length := by
    rw [List.length_append]
    omega
  rw [hashBlocks, if_pos hle, List.take_left' h, List.drop_left' h]

theorem hashBlocks_short (h : message.length < 64) : hashBlocks s message = s := by
  rw [hashBlocks, if_neg (Nat.not_le.mpr h)]

theorem hashBlocks_nil : hashBlocks s [] = s := hashBlocks_short (by decide)

/-- Whole blocks come one after the other. -/
theorem hashBlocks_append (n : ℕ) (h : message.length = 64 * n) :
    hashBlocks s (message ++ rest) = hashBlocks (hashBlocks s message) rest := by
  induction n generalizing s message with
  | zero =>
    obtain rfl : message = [] := List.eq_nil_of_length_eq_zero (by omega)
    rw [List.nil_append, hashBlocks_nil]
  | succ n ih =>
    have htake : (message.take 64).length = 64 := by
      rw [List.length_take]
      omega
    have hdrop : (message.drop 64).length = 64 * n := by
      rw [List.length_drop]
      omega
    rw [← List.take_append_drop 64 message, List.append_assoc, hashBlocks_block htake,
      hashBlocks_block htake, ih hdrop]

end Blocks

end Yalantinglibs.Sha1
