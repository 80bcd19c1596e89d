import Yalantinglibs.Data.ByteCodec

/-!
# Buffer sequences of NetworkDirect sockets

The loops of `coro_io/networkdirect/nd_io.hpp` that go over the buffers of a call: one copies bytes
out of them into a registered buffer, and one fills them with what remains of a received message.

## Main results

* `copyFromBufferSequence_eq` — the bytes of the buffers one behind the other
* `consumeToBufferSequence_spec` — the buffers are filled from an offset on
-/

set_option autoImplicit false

namespace Yalantinglibs.CoroIo.Nd

open ByteCodec

/-- `copy_from_buffer_sequence`; `len` is how many bytes are still to be copied. -/
def copyFromBufferSequence : List Bytes → ℕ → ℕ → Bytes
  | [], _, _ => []
  | b :: bs, offset, len =>
    if len = 0 then []
    else if b.length ≤ offset then copyFromBufferSequence bs (offset - b.length) len
    else
      let n := min len (b.length - offset)
      (b.drop offset).take n ++ copyFromBufferSequence bs 0 (len - n)

/-- What a read makes of its buffers. -/
structure Consumed where
  buffers : List Bytes
  copied : ℕ
  /-- what remains of the message -/
  remain : Bytes

/-- `consume_to_buffer_sequence`, which calls `consume` for each buffer. -/
def consumeToBufferSequence : List Bytes → ℕ → ℕ → Bytes → Consumed
  | [], _, _, remain => ⟨[], 0, remain⟩
  | b :: bs, offset, len, remain =>
    if len = 0 then ⟨b :: bs, 0, remain⟩
    else if b.length ≤ offset then
      let c := consumeToBufferSequence bs (offset - b.length) len remain
      { c with buffers := b :: c.buffers }
    else
      let n := min len (b.length - offset)
      let got := min n remain.length
      let filled := b.take offset ++ remain.take got ++ b.drop (offset + got)
      if got < n then ⟨filled :: bs, got, remain.drop got⟩
      else
        let c := consumeToBufferSequence bs 0 (len - n) (remain.drop got)
        ⟨filled :: c.buffers, got + c.copied, c.remain⟩

theorem copyFromBufferSequence_eq (bufs : List Bytes) (offset len : ℕ) :
    copyFromBufferSequence bufs offset len = (bufs.flatten.drop offset).take len := by
  induction bufs generalizing offset len with
  | nil => rw [copyFromBufferSequence, List.flatten_nil, List.drop_nil, List.take_nil]
  | cons b bs ih =>
    rw [copyFromBufferSequence, List.flatten_cons]
    by_cases hlen : len = 0
    · rw [if_pos hlen, hlen, List.take_zero]
    rw [if_neg hlen]
    by_cases hskip : b.length ≤ offset
    · rw [if_pos hskip, ih, List.drop_append, List.drop_eq_nil_of_le hskip, List.nil_append]
    · rw [if_neg hskip]
      dsimp only
      rw [ih, List.drop_zero, List.drop_append_of_le_length (by omega), List.take_append,
        List.length_drop]
      congr 1
      · rw [List.take_eq_take_iff, List.length_drop]
        omega
      · congr 1
        omega

/-- The bytes go where the offset says, as many as there is room for and as there are. -/
structure Fills (bufs : List Bytes) (offset len : ℕ) (bytes : Bytes) (c : Consumed) : Prop where
  copied : c.copied = min len bytes.length
  remain : c.remain = bytes.drop c.copied
  buffers : c.buffers.flatten = bufs.flatten.take offset ++ bytes.take c.copied ++
    bufs.flatten.drop (offset + c.copied)

theorem consumeToBufferSequence_spec (bufs : List Bytes) (offset len : ℕ) (bytes : Bytes)
    (h : offset + len ≤ bufs.flatten.length) :
    Fills bufs offset len bytes (consumeToBufferSequence bufs offset len bytes) := by
  induction bufs generalizing offset len bytes with
  | nil =>
    have hzero : offset = 0 ∧ len = 0 := by
      rw [List.flatten_nil, List.length_nil] at h
      omega
    obtain ⟨rfl, rfl⟩ := hzero
    exact ⟨(Nat.zero_min _).symm, rfl, rfl⟩
  | cons b bs ih =>
    rw [List.flatten_cons, List.length_append] at h
    rw [consumeToBufferSequence]
    by_cases hlen : len = 0
    · rw [if_pos hlen]
      refine ⟨?_, rfl, ?_⟩
      · rw [hlen, Nat.zero_min]
      · rw [List.take_zero, List.append_nil, Nat.add_zero, List.take_append_drop]
    rw [if_neg hlen]
    by_cases hskip : b.length ≤ offset
    · rw [if_pos hskip]
      obtain ⟨hcopied, hremain, hbuffers⟩ := ih (offset - b.length) len bytes (by omega)
      generalize consumeToBufferSequence bs (offset - b.length) len bytes = c at *
      refine ⟨hcopied, hremain, ?_⟩
      have hpassed : b.drop (offset + c.copied) = [] := List.drop_eq_nil_of_le (by omega)
      dsimp only
      rw [List.flatten_cons, List.flatten_cons, hbuffers, List.take_append, List.drop_append,
        List.take_of_length_le hskip, hpassed, List.nil_append, Nat.sub_add_comm hskip]
      simp only [List.append_assoc]
    rw [if_neg hskip]
    dsimp only
    -- `n` bytes fit into this buffer, and `got` are there
    generalize hn : min len (b.length - offset) = n
    generalize hgot : min n bytes.length = got
    by_cases hfew : got < n
    · rw [if_pos hfew]
      refine ⟨by dsimp only; omega, rfl, ?_⟩
      dsimp only
      rw [List.flatten_cons, List.flatten_cons, List.take_append_of_le_length (by omega),
        List.drop_append_of_le_length (by omega), List.append_assoc, List.append_assoc]
    · rw [if_neg hfew]
      obtain ⟨hcopied, hremain, hbuffers⟩ := ih 0 (len - n) (bytes.drop got) (by omega)
      generalize consumeToBufferSequence bs 0 (len - n) (bytes.drop got) = c at *
      rw [List.length_drop] at hcopied
      refine ⟨by dsimp only; omega, ?_, ?_⟩
      · dsimp only
        rw [hremain, List.drop_drop]
      · dsimp only
        rw [List.take_zero, List.nil_append, Nat.zero_add] at hbuffers
        rw [List.flatten_cons, List.flatten_cons, hbuffers,
          List.take_append_of_le_length (by omega), List.take_add, List.drop_append]
        by_cases hrest : len = n
        · have hzero : c.copied = 0 := by omega
          rw [hzero, List.take_zero, Nat.add_zero]
          have hend : offset + got - b.length = 0 := by omega
          rw [hend]
          simp only [List.drop_zero, List.nil_append, List.append_assoc]
        · -- this buffer is full
          have hfull : offset + got = b.length := by omega
          rw [← Nat.add_assoc, hfull, List.drop_length, List.append_nil,
            List.drop_eq_nil_of_le (Nat.le_add_right _ _), Nat.add_sub_cancel_left]
          simp only [List.nil_append, List.append_assoc]

end Yalantinglibs.CoroIo.Nd
