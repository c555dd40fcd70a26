import NexFi.PosixContent

/-!
# Gob streams and what overlapping encoders leave in a file

One `Encode` on a fresh encoder writes the type definitions, one message each
and the same for every value of a type, and then one value message. Decoding
reads through the definitions up to the first value: it ignores what follows,
fails on a stream that stops early, and fails where a message has length zero.
A decoded value is the encoded one up to `canon`, which forgets the difference
between a nil and an empty slice.
-/

namespace NexFi.Posix

structure Gob (V : Type) where
  descriptors : List Bytes
  message : V → Bytes
  decode : Bytes → Option V
  canon : V → V
  descriptor_ne : ∀ d ∈ descriptors, d ≠ []
  message_ne : ∀ v, message v ≠ []
  canon_canon : ∀ v, canon (canon v) = canon v
  decode_encode : ∀ v rest, decode (descriptors.flatten ++ message v ++ rest) = some (canon v)
  decode_truncated : ∀ v c, c <+: descriptors.flatten ++ message v →
    c ≠ descriptors.flatten ++ message v → decode c = none
  decode_gap : ∀ i rest, decode ((descriptors.take i).flatten ++ 0 :: rest) = none

namespace Gob
variable {V : Type} (G : Gob V)

/-- The writes of one `Encode`, in order. -/
def messages (v : V) : List Bytes := G.descriptors ++ [G.message v]

def stream (v : V) : Bytes := G.descriptors.flatten ++ G.message v

theorem messages_flatten (v : V) : (G.messages v).flatten = G.stream v := by
  simp [messages, stream]

theorem messages_ne (v : V) : G.messages v ≠ [] := by
  simp [messages]

theorem message_mem_ne {v : V} {b : Bytes} (h : b ∈ G.messages v) : b ≠ [] := by
  simp only [messages, List.mem_append, List.mem_singleton] at h
  rcases h with h | rfl
  · exact G.descriptor_ne b h
  · exact G.message_ne v

theorem messages_split {v : V} {done todo : List Bytes} {b : Bytes}
    (h : G.messages v = done ++ b :: todo) :
    (todo = [] ∧ done = G.descriptors ∧ b = G.message v) ∨
    ∃ ds, todo = ds ++ [G.message v] ∧ G.descriptors = done ++ b :: ds := by
  rw [messages] at h
  rcases List.eq_nil_or_concat todo with rfl | ⟨ds, m, rfl⟩
  · obtain ⟨rfl, hb⟩ := List.append_inj' h rfl
    exact Or.inl ⟨rfl, rfl, by simpa using hb.symm⟩
  · rw [List.concat_eq_append, ← List.cons_append, ← List.append_assoc] at h
    obtain ⟨hds, hm⟩ := List.append_inj' h rfl
    exact Or.inr ⟨ds, by simpa using hm.symm, hds⟩

theorem decode_stream (v : V) : G.decode (G.stream v) = some (G.canon v) := by
  simpa [stream] using G.decode_encode v []

/-- A file holding the first messages of an `Encode` and a proper part of the
next one does not decode. -/
theorem decode_partial {v : V} {done todo : List Bytes} {b : Bytes}
    (h : G.messages v = done ++ b :: todo) (n : ℕ) :
    G.decode (done.flatten ++ b.dropLast.take n) = none := by
  have hb : b ≠ [] := G.message_mem_ne (v := v) (by simp [h])
  have hstream : G.stream v = done.flatten ++ b ++ todo.flatten := by
    simp [← messages_flatten, h]
  have hshort : (b.dropLast.take n).length < b.length := by
    have hpos : 0 < b.length := List.length_pos_iff.mpr hb
    simp only [List.length_take, List.length_dropLast]
    omega
  refine G.decode_truncated v _ ?_ ?_
  · change _ <+: G.stream v
    rw [hstream, List.append_assoc, List.prefix_append_right_inj]
    exact ((List.take_prefix n _).trans (List.dropLast_prefix b)).trans (List.prefix_append _ _)
  · change _ ≠ G.stream v
    intro heq
    have hlen := congrArg List.length heq
    rw [hstream] at hlen
    simp only [List.length_append] at hlen
    omega

end Gob

end NexFi.Posix
