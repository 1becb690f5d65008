import Mathlib.Data.List.Infix
import Mathlib.Data.List.ReduceOption
import NextPath.Foundations.Bytes

/-!
# Streams of messages

An encoder turns messages into bytes, one after the other, and may remember what it has written: the
bytes of a message depend on the messages before it. A reader who has seen a part of the stream can
tell which messages are complete in it (`Unambiguous`), so that what it reads from a prefix of the
stream is a prefix of the messages.
-/

namespace NextPath.Streams

variable {M : Type}

/-- The bytes of a message, after the messages that were written before it. -/
abbrev Encoder (M : Type) := List M → M → Bytes

/-- The bytes of messages, after others. -/
def streamAfter (enc : Encoder M) : List M → List M → Bytes
  | _, [] => []
  | prev, m :: ms => enc prev m ++ streamAfter enc (prev ++ [m]) ms

/-- The bytes of messages. -/
def stream (enc : Encoder M) (ms : List M) : Bytes := streamAfter enc [] ms

/-- Messages that are complete in a part of the stream are the first messages of it. -/
def Unambiguous (enc : Encoder M) : Prop :=
  ∀ ms ms', stream enc ms <+: stream enc ms' → ms <+: ms'

variable {enc : Encoder M}

@[simp] theorem stream_nil : stream enc [] = [] := rfl

theorem streamAfter_append (prev ms ms' : List M) :
    streamAfter enc prev (ms ++ ms') =
      streamAfter enc prev ms ++ streamAfter enc (prev ++ ms) ms' := by
  induction ms generalizing prev with
  | nil => simp [streamAfter]
  | cons m ms ih => simp [streamAfter, ih]

theorem stream_append (ms ms' : List M) :
    stream enc (ms ++ ms') = stream enc ms ++ streamAfter enc ms ms' := by
  rw [stream, streamAfter_append, List.nil_append]
  rfl

theorem stream_concat (ms : List M) (m : M) :
    stream enc (ms ++ [m]) = stream enc ms ++ enc ms m := by
  rw [stream_append, streamAfter, streamAfter, List.append_nil]

/-- An encoder that writes a byte of its own for every message. -/
theorem unambiguous_of_injective {f : M → UInt8} (hf : Function.Injective f) :
    Unambiguous fun _ m => [f m] := by
  have hstream (prev ms : List M) : streamAfter (fun _ m => [f m]) prev ms = ms.map f := by
    induction ms generalizing prev with
    | nil => rfl
    | cons m ms ih => rw [streamAfter, ih, List.map_cons, List.singleton_append]
  intro ms ms' h
  rw [stream, stream, hstream, hstream] at h
  obtain ⟨rest, hrest⟩ := h
  rw [List.append_eq_map_iff] at hrest
  obtain ⟨a, b, rfl, ha, -⟩ := hrest
  rw [List.map_injective_iff.2 hf ha]
  exact List.prefix_append ms b

end NextPath.Streams
