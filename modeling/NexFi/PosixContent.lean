import Mathlib.Data.List.Basic

/-!
# File contents and positioned writes

A file's content is a list of bytes. A write goes to an explicit offset, as it
does through an open file: bytes already there are replaced, a gap left before
the offset reads as zeros, and what lies behind the written range is kept.
-/

namespace NexFi.Posix

abbrev Bytes := List UInt8

def zeros (n : ℕ) : Bytes := List.replicate n 0

def writeAt (content : Bytes) (offset : ℕ) (b : Bytes) : Bytes :=
  content.take offset ++ zeros (offset - content.length) ++ b ++ content.drop (offset + b.length)

@[simp] theorem zeros_length (n : ℕ) : (zeros n).length = n := List.length_replicate

theorem zeros_add (m n : ℕ) : zeros (m + n) = zeros m ++ zeros n :=
  List.replicate_add m n 0

theorem zeros_eq_cons {n : ℕ} (h : n ≠ 0) : ∃ t, zeros n = 0 :: t := by
  obtain ⟨m, rfl⟩ := Nat.exists_eq_succ_of_ne_zero h
  exact ⟨zeros m, rfl⟩

theorem writeAt_start (content b : Bytes) : writeAt content 0 b = b ++ content.drop b.length := by
  simp [writeAt, zeros]

theorem writeAt_nil (offset : ℕ) (b : Bytes) : writeAt [] offset b = zeros offset ++ b := by
  simp [writeAt]

/-- A write behind a known prefix leaves the prefix alone. -/
theorem writeAt_append (head rest : Bytes) (offset : ℕ) (b : Bytes) :
    writeAt (head ++ rest) (head.length + offset) b = head ++ writeAt rest offset b := by
  have hzero : head.length + offset - (head ++ rest).length = offset - rest.length := by
    simp only [List.length_append]
    omega
  have htake : (head ++ rest).take (head.length + offset) = head ++ rest.take offset :=
    List.take_length_add_append offset
  have hdrop : (head ++ rest).drop (head.length + offset + b.length) =
      rest.drop (offset + b.length) := by
    rw [Nat.add_assoc]
    exact List.drop_length_add_append _
  simp only [writeAt, hzero, htake, hdrop, List.append_assoc]

theorem writeAt_end (content b : Bytes) : writeAt content content.length b = content ++ b := by
  simpa [writeAt_nil, zeros] using writeAt_append content [] 0 b

/-- Where the piece with index `j` starts when the pieces are written in order. -/
def offsetOf (pieces : List Bytes) (j : ℕ) : ℕ := (pieces.take j).flatten.length

theorem offsetOf_zero (pieces : List Bytes) : offsetOf pieces 0 = 0 := by
  simp [offsetOf]

theorem offsetOf_succ (d : Bytes) (pieces : List Bytes) (j : ℕ) :
    offsetOf (d :: pieces) (j + 1) = d.length + offsetOf pieces j := by
  simp [offsetOf]

end NexFi.Posix
