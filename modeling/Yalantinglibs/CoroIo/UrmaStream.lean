import Yalantinglibs.CoroIo.UrmaReader
import Yalantinglibs.CoroIo.UrmaWriter

/-!
# The byte stream of an URMA socket

The messages that a socket posts, and the bytes that the calls at the other end return.

## Main results

* `byte_stream` — when the messages are ones that a peer takes for data, and when each call returns
  the bytes it asks for
-/

set_option autoImplicit false

namespace Yalantinglibs.CoroIo

open TransitionSystem

/-- The messages of calls that are over have the bytes of their buffers, none is too long, and none
is empty exactly where no call has had an empty one posted. At the other end, the calls return the
bytes of the stream one behind the other, and each as many as it asks for exactly where no read of
views has asked for less than what remained of a message. -/
theorem byte_stream (size sendWindow capacity : ℕ) :
    (∀ w, (Writer.system size sendWindow).Reachable w → w.current = none → w.failed = false →
      w.posted.flatten = w.written ∧ (∀ m ∈ w.posted, m.length ≤ size) ∧
        ((∀ m ∈ w.posted, m ≠ []) ↔
          (Writer.system size sendWindow).Reaches (WriteEvent.NoEmpty size) w)) ∧
    ∀ r, (Reader.system capacity).Reachable r →
      r.output <+: r.arrived.flatten ∧
        (r.AllExact ↔ (Reader.system capacity).Reaches ReadEvent.Fits r) := by
  refine ⟨fun w hw hidle hok => ?_, fun r hr => ?_⟩
  · obtain ⟨hflat, hle, -⟩ := Writer.posted_flatten hw hidle hok
    exact ⟨hflat, hle, Writer.nonempty_iff hw hidle hok⟩
  · exact ⟨Reader.returned_isPrefix hr, Reader.exact_iff hr⟩

/-- The state at the end of a run. -/
def Writer.runOf (size sendWindow : ℕ) (events : List WriteEvent) : Writer :=
  ((Writer.system size sendWindow).runIf (fun _ _ => True) {} events).getD {}

def Reader.runOf (capacity : ℕ) (events : List ReadEvent) : Reader :=
  ((Reader.system capacity).runIf (fun _ _ => True) {} events).getD {}

/-- Three buffers in two messages, which are read into one. -/
theorem byte_stream_three_buffers :
    ((Writer.runOf 2 1 [.call [[1, 2], [], [3]], .post, .complete, .post, .complete,
      .finish]).posted.flatten = [1, 2, 3]) ∧
    ((Reader.runOf 4 [.arrive 1 [2], .call (.read [3] false), .arrive 3 []]).output <+:
      [1, 2, 3]) := by
  have hwrite : (Writer.system 2 1).runIf (fun _ _ => True) {}
      [.call [[1, 2], [], [3]], .post, .complete, .post, .complete, .finish] =
      some (Writer.runOf 2 1 [.call [[1, 2], [], [3]], .post, .complete, .post, .complete,
        .finish]) := rfl
  have hread : (Reader.system 4).runIf (fun _ _ => True) {}
      [.arrive 1 [2], .call (.read [3] false), .arrive 3 []] =
      some (Reader.runOf 4 [.arrive 1 [2], .call (.read [3] false), .arrive 3 []]) := rfl
  exact ⟨((byte_stream 2 1 4).1 _ (reaches_of_runIf .init hwrite) rfl rfl).1,
    ((byte_stream 2 1 4).2 _ (reaches_of_runIf .init hread)).1⟩

/-- A buffer without bytes is posted as the end of the stream, and a read of one byte as views gets
the two that remain of a message. -/
theorem not_byte_stream :
    (¬∀ w, (Writer.system 2 1).Reachable w → w.current = none → w.failed = false →
      ∀ m ∈ w.posted, m ≠ []) ∧
    ¬∀ r, (Reader.system 4).Reachable r → r.AllExact := by
  constructor
  · intro h
    have hrun : (Writer.system 2 1).runIf (fun _ _ => True) {}
        [.call [[]], .post, .complete, .finish] =
        some (Writer.runOf 2 1 [.call [[]], .post, .complete, .finish]) := rfl
    exact h _ (reaches_of_runIf .init hrun) rfl rfl [] (List.mem_singleton_self _) rfl
  · intro h
    have hrun : (Reader.system 4).runIf (fun _ _ => True) {}
        [.arrive 1 [2, 3], .call (.read [1] false), .call (.views 1)] =
        some (Reader.runOf 4 [.arrive 1 [2, 3], .call (.read [1] false), .call (.views 1)]) := rfl
    have hexact : [(2 : UInt8), 3].length = 1 := h _ (reaches_of_runIf .init hrun)
      (.views 1, [2, 3]) (List.mem_cons_of_mem _ (List.mem_singleton_self _))
    exact absurd hexact (by decide)

end Yalantinglibs.CoroIo
