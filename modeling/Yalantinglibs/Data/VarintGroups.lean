import Yalantinglibs.Data.ByteCodec

/-!
# What a varint stands for

The bytes of a base-128 varint are groups of seven bits, the lowest first. A reader with a bound on
the number of bytes takes all bytes up to the first one without the high bit, and has the number of
their groups, as far as it fits 64 bits.

## Main definitions

* `groups` — the number of a row of groups
* `varintEnd` — how many bytes a varint takes, if it ends within a bound

## Main results

* `readVarint_eq` — the reader in terms of these
* `varintEnd_eq_none_iff` — when a varint does not end within a bound
-/

set_option autoImplicit false

namespace Yalantinglibs.ByteCodec

/-- The number whose groups of seven bits are given, the lowest first. -/
def groups : Bytes → ℕ
  | [] => 0
  | b :: bs => b.toNat % 128 + 128 * groups bs

/-- The number of bytes up to the first one without the high bit, among the first `k`. -/
def varintEnd : ℕ → Bytes → Option ℕ
  | 0, _ => none
  | _ + 1, [] => none
  | k + 1, b :: bs => if b.toNat < 128 then some 1 else (varintEnd k bs).map (· + 1)

variable {k n : ℕ} {bs : Bytes}

theorem varintEnd_bounds (h : varintEnd k bs = some n) : 0 < n ∧ n ≤ k ∧ n ≤ bs.length := by
  induction k generalizing bs n with
  | zero => cases h
  | succ k ih =>
    cases bs with
    | nil => cases h
    | cons b bs =>
      rw [varintEnd] at h
      rw [List.length_cons]
      split at h
      · cases h
        omega
      · obtain ⟨m, hm, rfl⟩ := Option.map_eq_some_iff.mp h
        have := ih hm
        omega

/-- A varint does not end where the bytes that may be looked at have the high bit. -/
theorem varintEnd_eq_none_iff : varintEnd k bs = none ↔ ∀ b ∈ bs.take k, 128 ≤ b.toNat := by
  induction k generalizing bs with
  | zero => simp [varintEnd]
  | succ k ih =>
    cases bs with
    | nil => simp [varintEnd]
    | cons b bs =>
      rw [varintEnd, List.take_succ_cons, List.forall_mem_cons]
      split
      · rename_i hlast
        refine iff_of_false (by simp) fun h => ?_
        have := h.1
        omega
      · rename_i hmore
        rw [Option.map_eq_none_iff, ih]
        exact (and_iff_right (by omega)).symm

/-- What follows the end does not matter. -/
theorem varintEnd_append (h : varintEnd k bs = some n) (s : Bytes) :
    varintEnd k (bs ++ s) = some n := by
  induction k generalizing bs n with
  | zero => cases h
  | succ k ih =>
    cases bs with
    | nil => cases h
    | cons b bs =>
      rw [varintEnd] at h
      rw [List.cons_append, varintEnd]
      split at h
      · rename_i hlast
        rw [if_pos hlast, h]
      · rename_i hmore
        obtain ⟨m, hm, rfl⟩ := Option.map_eq_some_iff.mp h
        rw [if_neg hmore, ih hm, Option.map_some]

/-- An end that is there already is found without what follows. -/
theorem varintEnd_of_append {s : Bytes} (h : varintEnd k (bs ++ s) = some n) (hn : n ≤ bs.length) :
    varintEnd k bs = some n := by
  cases hend : varintEnd k bs with
  | some m => rw [← h, varintEnd_append hend]
  | none =>
    induction k generalizing bs n with
    | zero => cases h
    | succ k ih =>
      cases bs with
      | nil =>
        have := varintEnd_bounds h
        rw [List.length_nil] at hn
        omega
      | cons b bs =>
        rw [List.cons_append, varintEnd] at h
        rw [varintEnd] at hend
        split at h
        · rename_i hlast
          rw [if_pos hlast] at hend
          cases hend
        · rename_i hmore
          rw [if_neg hmore, Option.map_eq_none_iff] at hend
          obtain ⟨m, hm, rfl⟩ := Option.map_eq_some_iff.mp h
          cases ih hm (Nat.le_of_succ_le_succ hn) hend

/-- The groups that are read before are below the next one, of which the bits up to 64 are kept. -/
theorem or_group {acc d i : ℕ} (hacc : acc < 2 ^ (i * 7)) (hi : i * 7 ≤ 64) :
    acc ||| ((d <<< (i * 7)) % 2 ^ 64) = (acc + d * 2 ^ (i * 7)) % 2 ^ 64 := by
  have hsplit : 2 ^ 64 = 2 ^ (i * 7) * 2 ^ (64 - i * 7) := by
    rw [← pow_add]
    congr 1
    omega
  have hhigh : (d * 2 ^ (i * 7)) % 2 ^ 64 = 2 ^ (i * 7) * (d % 2 ^ (64 - i * 7)) := by
    rw [hsplit, Nat.mul_comm d, Nat.mul_mod_mul_left]
  have hlow : d % 2 ^ (64 - i * 7) < 2 ^ (64 - i * 7) := Nat.mod_lt _ (Nat.two_pow_pos _)
  have hsum : 2 ^ (i * 7) * (d % 2 ^ (64 - i * 7)) + acc < 2 ^ 64 := by
    calc 2 ^ (i * 7) * (d % 2 ^ (64 - i * 7)) + acc
        < 2 ^ (i * 7) * (d % 2 ^ (64 - i * 7)) + 2 ^ (i * 7) := Nat.add_lt_add_left hacc _
      _ = 2 ^ (i * 7) * (d % 2 ^ (64 - i * 7) + 1) := by ring
      _ ≤ 2 ^ (i * 7) * 2 ^ (64 - i * 7) := Nat.mul_le_mul_left _ hlow
      _ = 2 ^ 64 := hsplit.symm
  rw [Nat.shiftLeft_eq, hhigh, Nat.or_comm, ← Nat.two_pow_add_eq_or_of_lt hacc, Nat.add_comm acc,
    Nat.add_mod, hhigh, Nat.mod_eq_of_lt (by omega : acc < 2 ^ 64), Nat.mod_eq_of_lt hsum]

/-- The reader in the middle of a varint: `acc` has the `i` groups that were read before. -/
theorem readVarint_eq_aux {i acc : ℕ} (hacc : acc < 2 ^ (i * 7)) (hi : i + k ≤ 10) :
    readVarint k i acc bs =
      match varintEnd k bs with
      | some n => .value ((acc + groups (bs.take n) * 2 ^ (i * 7)) % 2 ^ 64) (bs.drop n)
      | none => if bs.length < k then .exhausted else .tooLong (bs.drop k) := by
  have hbit : ∀ b : UInt8, b.toNat &&& 0x80 = 0 ↔ b.toNat < 128 := by
    intro b
    have key : ∀ r < 256, r &&& 0x80 = 0 ↔ r < 128 := by decide +kernel
    exact key _ b.toNat_lt
  have hlow : ∀ x : ℕ, x &&& 0x7f = x % 128 := fun x => Nat.and_two_pow_sub_one_eq_mod x 7
  induction k generalizing i acc bs with
  | zero => rfl
  | succ k ih =>
    cases bs with
    | nil => rfl
    | cons b bs =>
      have hgroup := or_group (d := b.toNat % 128) hacc (by omega)
      rw [readVarint, varintEnd]
      simp only [hbit, hlow, hgroup]
      split
      · rename_i hlast
        simp [groups]
      · -- fewer than ten groups fit 64 bits
        rename_i hmore
        by_cases hk : k = 0
        · subst hk
          simp [readVarint, varintEnd]
        have hpow : 2 ^ ((i + 1) * 7) = 128 * 2 ^ (i * 7) := by
          rw [Nat.succ_mul, pow_add]
          ring
        have hacc' : acc + b.toNat % 128 * 2 ^ (i * 7) < 2 ^ ((i + 1) * 7) := by
          have hle := Nat.mul_le_mul_right (2 ^ (i * 7)) (show b.toNat % 128 ≤ 127 by omega)
          omega
        have hfits : 2 ^ ((i + 1) * 7) ≤ 2 ^ 64 := Nat.pow_le_pow_right (by decide) (by omega)
        rw [Nat.mod_eq_of_lt (hacc'.trans_le hfits), ih hacc' (by omega)]
        cases hend : varintEnd k bs with
        | some n =>
          simp only [Option.map_some, List.take_succ_cons, List.drop_succ_cons, groups, hpow]
          congr 2
          ring
        | none => simp only [Option.map_none, List.length_cons, Nat.add_lt_add_iff_right,
            List.drop_succ_cons]

/-- The reader takes the bytes up to the end, and has the number of their groups. -/
theorem readVarint_eq (hk : k ≤ 10) :
    readVarint k 0 0 bs =
      match varintEnd k bs with
      | some n => .value (groups (bs.take n) % 2 ^ 64) (bs.drop n)
      | none => if bs.length < k then .exhausted else .tooLong (bs.drop k) := by
  rw [readVarint_eq_aux (by simp) (by omega)]
  simp

end Yalantinglibs.ByteCodec
