import Mathlib.Algebra.BigOperators.Group.List.Basic

/-!
# Records of one size

Records are written one behind the other and read back where they start. A reader
that looks at no more than a record does not depend on what lies behind the last.
-/

namespace NexFi.PackedRecords

variable {α β : Type*} (size : ℕ) (read : List β → α)

def recordsAt : ℕ → List β → List α
  | 0, _ => []
  | n + 1, bytes => read bytes :: recordsAt n (bytes.drop size)

variable {size} {read}

@[simp] theorem length_recordsAt (n : ℕ) (bytes : List β) : (recordsAt size read n bytes).length = n := by
  induction n generalizing bytes with
  | zero => rfl
  | succ n ih => exact congrArg (· + 1) (ih _)

theorem recordsAt_append (hread : ∀ bytes stale, size ≤ bytes.length → read (bytes ++ stale) = read bytes)
    {n : ℕ} {bytes : List β} (h : size * n ≤ bytes.length) (stale : List β) :
    recordsAt size read n (bytes ++ stale) = recordsAt size read n bytes := by
  induction n generalizing bytes with
  | zero => rfl
  | succ n ih =>
    rw [Nat.mul_succ] at h
    have hfirst : size ≤ bytes.length := Nat.le_trans (Nat.le_add_left _ _) h
    have hrest : size * n ≤ (bytes.drop size).length := by
      rw [List.length_drop]
      exact Nat.le_sub_of_add_le h
    rw [recordsAt, recordsAt, hread bytes stale hfirst, List.drop_append_of_le_length hfirst, ih hrest]

section Writing
variable {write : α → List β}

theorem length_flatMap_records (hsize : ∀ x, (write x).length = size) (l : List α) :
    (l.flatMap write).length = size * l.length := by
  induction l with
  | nil => rfl
  | cons x l ih =>
    rw [List.flatMap_cons, List.length_append, hsize, ih, List.length_cons, Nat.mul_succ, Nat.add_comm]

theorem recordsAt_flatMap (hsize : ∀ x, (write x).length = size)
    (hread : ∀ x rest, read (write x ++ rest) = x) (l : List α) (rest : List β) :
    recordsAt size read l.length (l.flatMap write ++ rest) = l := by
  induction l with
  | nil => rfl
  | cons x l ih =>
    rw [List.flatMap_cons, List.append_assoc, List.length_cons, recordsAt, hread,
      List.drop_left' (hsize x), ih]

end Writing

/-- As many rounds as there are items are enough for a text of items that are not empty. -/
theorem length_le_length_flatMap {write : α → List β} (h : ∀ x, 0 < (write x).length) (l : List α) :
    l.length ≤ (l.flatMap write).length := by
  have hsum : (l.map fun x => (write x).length).length ≤ (l.map fun x => (write x).length).sum := by
    refine List.length_le_sum_of_one_le _ fun n hn => ?_
    obtain ⟨x, -, rfl⟩ := List.mem_map.mp hn
    exact h x
  rwa [List.length_map, ← List.length_flatMap] at hsum

end NexFi.PackedRecords
