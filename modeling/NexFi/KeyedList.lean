import Mathlib.Data.List.Nodup

/-!
# Lists of keys with values, where the first value of a key stays

`insertNew` adds a pair unless its key is there already. A list built by it has
the keys that were offered, and every pair in it is one of those that were.
-/

namespace NexFi.KeyedList
variable {K V : Type}

def keys (m : List (K × V)) : List K := m.map Prod.fst

theorem keys_append (m n : List (K × V)) : keys (m ++ n) = keys m ++ keys n := List.map_append

variable [DecidableEq K]

def insertNew (m : List (K × V)) (p : K × V) : List (K × V) :=
  if p.1 ∈ keys m then m else m ++ [p]

def insertAll (m ps : List (K × V)) : List (K × V) := ps.foldl insertNew m

theorem insertNew_of_mem {m : List (K × V)} {p : K × V} (h : p.1 ∈ keys m) : insertNew m p = m :=
  if_pos h

theorem insertNew_of_notMem {m : List (K × V)} {p : K × V} (h : p.1 ∉ keys m) :
    insertNew m p = m ++ [p] := if_neg h

theorem mem_keys_insertNew (m : List (K × V)) (p : K × V) (k : K) :
    k ∈ keys (insertNew m p) ↔ k ∈ keys m ∨ k = p.1 := by
  by_cases h : p.1 ∈ keys m
  · rw [insertNew_of_mem h]
    exact ⟨Or.inl, fun hk => hk.elim id fun heq => heq ▸ h⟩
  · rw [insertNew_of_notMem h, keys_append, List.mem_append]
    simp [keys]

theorem mem_of_insertNew {m : List (K × V)} {p q : K × V} (h : q ∈ insertNew m p) :
    q ∈ m ∨ q = p := by
  unfold insertNew at h
  split_ifs at h
  · exact Or.inl h
  · simpa using h

theorem insertAll_cons (m : List (K × V)) (p : K × V) (ps : List (K × V)) :
    insertAll m (p :: ps) = insertAll (insertNew m p) ps := rfl

theorem mem_keys_insertAll (m ps : List (K × V)) (k : K) :
    k ∈ keys (insertAll m ps) ↔ k ∈ keys m ∨ k ∈ keys ps := by
  induction ps generalizing m with
  | nil => simp [insertAll, keys]
  | cons p ps ih =>
    rw [insertAll_cons, ih, mem_keys_insertNew, or_assoc]
    exact or_congr_right List.mem_cons.symm

theorem mem_of_insertAll {m ps : List (K × V)} {q : K × V} (h : q ∈ insertAll m ps) :
    q ∈ m ∨ q ∈ ps := by
  induction ps generalizing m with
  | nil => exact Or.inl h
  | cons p ps ih =>
    rcases ih h with hq | hq
    · rcases mem_of_insertNew hq with hold | rfl
      · exact Or.inl hold
      · exact Or.inr List.mem_cons_self
    · exact Or.inr (List.mem_cons_of_mem p hq)

theorem find?_insertNew (m : List (K × V)) (p : K × V) (k : K) :
    (insertNew m p).find? (fun q => q.1 = k) = (m ++ [p]).find? fun q => q.1 = k := by
  by_cases h : p.1 ∈ keys m
  · rw [insertNew_of_mem h, List.find?_append]
    by_cases hk : p.1 = k
    · have hsome : (m.find? fun q => q.1 = k).isSome := by
        obtain ⟨q, hq, hqk⟩ := List.mem_map.mp h
        rw [List.find?_isSome]
        exact ⟨q, hq, by simp [hqk, hk]⟩
      rw [Option.or_of_isSome hsome]
    · simp [hk]
  · rw [insertNew_of_notMem h]

/-- The first pair offered under a key is the one that is kept. -/
theorem find?_insertAll (m ps : List (K × V)) (k : K) :
    (insertAll m ps).find? (fun q => q.1 = k) = (m ++ ps).find? fun q => q.1 = k := by
  induction ps generalizing m with
  | nil => rw [List.append_nil]; rfl
  | cons p ps ih =>
    rw [insertAll_cons, ih, List.find?_append, find?_insertNew, ← List.find?_append,
      List.append_assoc]
    rfl

/-- The first element with a key is the only one when the keys are distinct. -/
theorem find?_of_nodup_map {α : Type} {key : α → K} {xs : List α} (h : (xs.map key).Nodup) {a : α}
    (ha : a ∈ xs) : (xs.find? fun x => key x = key a) = some a := by
  have hsome : (xs.find? fun x => key x = key a).isSome := by
    rw [List.find?_isSome]
    exact ⟨a, ha, by simp⟩
  obtain ⟨x, hx⟩ := Option.isSome_iff_exists.mp hsome
  have hkey : key x = key a := by simpa using List.find?_some hx
  rw [hx, List.inj_on_of_nodup_map h (List.mem_of_find?_eq_some hx) ha hkey]

theorem find?_eq_some_iff {m : List (K × V)} (h : (keys m).Nodup) {k : K} {v : V} :
    (m.find? fun q => q.1 = k) = some (k, v) ↔ (k, v) ∈ m := by
  constructor
  · exact List.mem_of_find?_eq_some
  · exact find?_of_nodup_map h

end NexFi.KeyedList
