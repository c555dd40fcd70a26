import Mathlib.Data.List.GetD
import NexFi.GobStream

/-!
# What overlapping encoders leave in a file

When several encoders of one type write to the same file through offsets of
their own, every message lands on its own position. The file is described by
which type definitions have been written and by whose value message was last;
it decodes only when all definitions are in place, and then to that value.
-/

namespace NexFi.Posix

def block (d : Bytes) (written : Bool) : Bytes := if written then d else zeros d.length

def blocks : List Bytes → List Bool → Bytes
  | d :: ds, b :: written => block d b ++ blocks ds written
  | _, _ => []

def mark (written : List Bool) (j : ℕ) : List Bool :=
  (written ++ List.replicate (j + 1 - written.length) false).set j true

@[simp] theorem block_length (d : Bytes) (b : Bool) : (block d b).length = d.length := by
  cases b <;> simp [block]

theorem mark_length (written : List Bool) (j : ℕ) :
    (mark written j).length = max written.length (j + 1) := by
  simp only [mark, List.length_set, List.length_append, List.length_replicate]
  omega

theorem mark_getD_self (written : List Bool) (j : ℕ) : (mark written j).getD j false = true := by
  have hj : j < (mark written j).length := by
    rw [mark_length]
    omega
  rw [List.getD_eq_getElem _ _ hj]
  simp [mark]

theorem mark_getD_of_written {written : List Bool} {i : ℕ} (j : ℕ)
    (h : written.getD i false = true) : (mark written j).getD i false = true := by
  by_cases hij : i = j
  · rw [hij]
    exact mark_getD_self written j
  · have hi : i < written.length := by
      by_contra hi
      rw [List.getD_eq_default _ _ (Nat.le_of_not_lt hi)] at h
      cases h
    have hi' : i < (mark written j).length := by
      rw [mark_length]
      omega
    rw [List.getD_eq_getElem _ _ hi] at h
    rw [List.getD_eq_getElem _ _ hi']
    simpa [mark, Ne.symm hij, List.getElem_append_left hi] using h

theorem mark_cons_zero (b : Bool) (written : List Bool) : mark (b :: written) 0 = true :: written := by
  simp [mark]

theorem mark_cons_succ (b : Bool) (written : List Bool) (j : ℕ) :
    mark (b :: written) (j + 1) = b :: mark written j := by
  simp [mark]

theorem mark_nil_zero : mark [] 0 = [true] := rfl

theorem mark_nil_succ (j : ℕ) : mark [] (j + 1) = false :: mark [] j := by
  simp [mark, List.replicate_succ]

theorem blocks_nil (ds : List Bytes) : blocks ds [] = [] := by
  cases ds <;> rfl

/-- Writing a definition to its place, when nothing or only definitions lie
before the end of the file. -/
theorem writeAt_blocks {ds : List Bytes} {written : List Bool} {tail d : Bytes} {j : ℕ}
    (hlen : written.length ≤ ds.length) (htail : tail ≠ [] → written.length = ds.length)
    (hd : ds[j]? = some d) :
    writeAt (blocks ds written ++ tail) (offsetOf ds j) d = blocks ds (mark written j) ++ tail := by
  induction ds generalizing written j with
  | nil => simp at hd
  | cons x ds ih =>
    cases written with
    | nil =>
      have ht : tail = [] := by
        by_contra hne
        simpa using htail hne
      subst ht
      cases j with
      | zero =>
        obtain rfl : x = d := by simpa using hd
        simp [blocks, block, offsetOf, mark_nil_zero, writeAt_start]
      | succ j =>
        have hrec := @ih [] j (by simp) (fun h => absurd rfl h) (by simpa using hd)
        simp only [blocks_nil, List.append_nil] at hrec ⊢
        rw [offsetOf_succ, writeAt_nil, zeros_add, List.append_assoc, ← writeAt_nil (offsetOf ds j),
          hrec, mark_nil_succ]
        rfl
    | cons b written =>
      cases j with
      | zero =>
        obtain rfl : x = d := by simpa using hd
        have hdrop : (block x b ++ (blocks ds written ++ tail)).drop x.length =
            blocks ds written ++ tail := List.drop_left' (block_length x b)
        simp only [blocks, offsetOf, List.take_zero, List.flatten_nil, List.length_nil,
          List.append_assoc, mark_cons_zero, writeAt_start, hdrop]
        rfl
      | succ j =>
        have hrec := @ih written j (by simpa using hlen)
          (fun h => by simpa using htail h) (by simpa using hd)
        simp only [blocks, List.append_assoc, mark_cons_succ, offsetOf_succ]
        rw [← block_length x b, writeAt_append, hrec]

theorem blocks_append_false (ds : List Bytes) (written : List Bool) (h : written.length ≤ ds.length) :
    blocks ds (written ++ List.replicate (ds.length - written.length) false) =
      blocks ds written ++ zeros (ds.flatten.length - (blocks ds written).length) := by
  induction ds generalizing written with
  | nil =>
    obtain rfl : written = [] := by simpa using h
    rfl
  | cons x ds ih =>
    cases written with
    | nil =>
      have hrec := ih [] (by simp)
      simp only [blocks_nil, List.nil_append, List.length_nil, Nat.sub_zero] at hrec ⊢
      rw [List.length_cons, List.replicate_succ, blocks, hrec, List.flatten_cons,
        List.length_append, zeros_add]
      rfl
    | cons b written =>
      have hrec := ih written (by simpa using h)
      simp only [blocks, List.cons_append, List.length_cons, Nat.add_sub_add_right, hrec,
        List.flatten_cons, List.length_append, List.append_assoc, block_length, Nat.add_sub_add_left]

theorem blocks_length {ds : List Bytes} {written : List Bool} (h : written.length = ds.length) :
    (blocks ds written).length = ds.flatten.length := by
  induction ds generalizing written with
  | nil => cases written <;> rfl
  | cons x ds ih =>
    cases written with
    | nil => simp at h
    | cons b written =>
      simp only [blocks, List.length_append, block_length, ih (by simpa using h), List.flatten_cons]

theorem blocks_length_le {ds : List Bytes} {written : List Bool} (h : written.length ≤ ds.length) :
    (blocks ds written).length ≤ ds.flatten.length := by
  induction ds generalizing written with
  | nil => cases written <;> simp [blocks]
  | cons x ds ih =>
    cases written with
    | nil => simp [blocks]
    | cons b written =>
      have hrec := @ih written (by simpa using h)
      simp only [blocks, List.length_append, block_length, List.flatten_cons]
      omega

theorem blocks_of_written {ds : List Bytes} {written : List Bool} (h : written.length ≤ ds.length)
    (hall : ∀ j < ds.length, written.getD j false = true) : blocks ds written = ds.flatten := by
  induction ds generalizing written with
  | nil => cases written <;> rfl
  | cons x ds ih =>
    cases written with
    | nil => simpa using hall 0 (by simp)
    | cons b written =>
      obtain rfl : b = true := by simpa using hall 0 (by simp)
      have hrec := @ih written (by simpa using h) fun j hj => by
        simpa using hall (j + 1) (by simpa using hj)
      simp [blocks, block, hrec]

/-- Either all definitions are in place, or reading meets a gap of zeros, or
the file ends before the last definition. -/
theorem blocks_cases {ds : List Bytes} (hne : ∀ d ∈ ds, d ≠ []) {written : List Bool}
    (h : written.length ≤ ds.length) :
    ((∀ j < ds.length, written.getD j false = true) ∧ blocks ds written = ds.flatten) ∨
    (∃ i rest, blocks ds written = (ds.take i).flatten ++ 0 :: rest) ∨
    (written.length < ds.length ∧ blocks ds written = (ds.take written.length).flatten) := by
  induction ds generalizing written with
  | nil =>
    refine Or.inl ⟨fun j hj => absurd hj (by simp), ?_⟩
    cases written <;> rfl
  | cons x ds ih =>
    cases written with
    | nil => exact Or.inr (Or.inr ⟨by simp, by simp [blocks_nil]⟩)
    | cons b written =>
      cases b with
      | false =>
        obtain ⟨t, ht⟩ := zeros_eq_cons (n := x.length) (by simpa using hne x List.mem_cons_self)
        refine Or.inr (Or.inl ⟨0, t ++ blocks ds written, ?_⟩)
        simp [blocks, block, ht]
      | true =>
        rcases ih (fun d hd => hne d (List.mem_cons_of_mem _ hd)) (by simpa using h) with
          ⟨hall, heq⟩ | ⟨i, rest, heq⟩ | ⟨hlt, heq⟩
        · refine Or.inl ⟨fun j hj => ?_, by simp [blocks, block, heq]⟩
          cases j with
          | zero => rfl
          | succ j => simpa using hall j (by simpa using hj)
        · exact Or.inr (Or.inl ⟨i + 1, rest, by simp [blocks, block, heq]⟩)
        · exact Or.inr (Or.inr ⟨by simpa using hlt, by simp [blocks, block, heq]⟩)

/-- The state of a file after writes by encoders named in `κ`: the definitions
in place, and the last writer of a value message with the bytes behind it. -/
structure Image (κ : Type) (ds : List Bytes) where
  written : List Bool
  last : Option (κ × Bytes)
  short : written.length ≤ ds.length
  full : last.isSome → written.length = ds.length

namespace Image
variable {κ : Type} {ds : List Bytes} (img : Image κ ds) (msg : κ → Bytes)

def truncated : Image κ ds := ⟨[], none, Nat.zero_le _, fun h => absurd h (by simp)⟩

def tail : Bytes :=
  match img.last with
  | none => []
  | some (k, rest) => msg k ++ rest

def content : Bytes := blocks ds img.written ++ img.tail msg

def Complete : Prop := ∀ j < ds.length, img.written.getD j false = true

def define (j : ℕ) (hj : j < ds.length) : Image κ ds where
  written := mark img.written j
  last := img.last
  short := by
    have := img.short
    rw [mark_length]
    omega
  full h := by
    have := img.full h
    rw [mark_length]
    omega

def store (k : κ) : Image κ ds where
  written := img.written ++ List.replicate (ds.length - img.written.length) false
  last := some (k, (img.tail msg).drop (msg k).length)
  short := by
    have := img.short
    simp only [List.length_append, List.length_replicate]
    omega
  full _ := by
    have := img.short
    simp only [List.length_append, List.length_replicate]
    omega

theorem written_store {j : ℕ} (k : κ) (h : img.written.getD j false = true) :
    (img.store msg k).written.getD j false = true := by
  have hj : j < img.written.length := by
    by_contra hj
    rw [List.getD_eq_default _ _ (Nat.le_of_not_lt hj)] at h
    cases h
  rw [store, List.getD_append _ _ _ _ hj]
  exact h

theorem content_truncated : (truncated : Image κ ds).content msg = [] := by
  simp [truncated, content, tail, blocks_nil]

theorem tail_of_short (h : img.tail msg ≠ []) : img.written.length = ds.length := by
  cases hl : img.last with
  | none => simp [tail, hl] at h
  | some p => exact img.full (by simp [hl])

theorem content_define {j : ℕ} (hj : j < ds.length) :
    writeAt (img.content msg) (offsetOf ds j) ds[j] = (img.define j hj).content msg :=
  writeAt_blocks img.short (img.tail_of_short msg) (List.getElem?_eq_getElem hj)

theorem content_store (k : κ) :
    writeAt (img.content msg) (offsetOf ds ds.length) (msg k) = (img.store msg k).content msg := by
  have hoff : offsetOf ds ds.length = ds.flatten.length := by simp [offsetOf]
  have hstore : (img.store msg k).content msg =
      (blocks ds img.written ++ zeros (ds.flatten.length - (blocks ds img.written).length)) ++
        (msg k ++ (img.tail msg).drop (msg k).length) := by
    rw [← blocks_append_false ds img.written img.short]
    rfl
  rw [hoff, hstore]
  by_cases hfull : img.written.length = ds.length
  · have hlen := blocks_length hfull
    simp only [content, ← hlen, Nat.sub_self]
    have hwrite := writeAt_append (blocks ds img.written) (img.tail msg) 0 (msg k)
    rw [Nat.add_zero] at hwrite
    rw [hwrite, writeAt_start]
    simp [zeros]
  · have htail : img.tail msg = [] := by
      by_contra hne
      exact hfull (img.tail_of_short msg hne)
    have hle := blocks_length_le img.short
    simp only [content, htail, List.append_nil, List.drop_nil]
    have hwrite := writeAt_append (blocks ds img.written) []
      (ds.flatten.length - (blocks ds img.written).length) (msg k)
    rw [List.append_nil, Nat.add_sub_cancel' hle, writeAt_nil] at hwrite
    rw [hwrite, List.append_assoc]

end Image

section Decoding
variable {V κ : Type} (G : Gob V) (val : κ → V) (img : Image κ G.descriptors)

theorem decode_complete (hc : img.Complete) {k : κ} {rest : Bytes} (hl : img.last = some (k, rest)) :
    G.decode (img.content fun k => G.message (val k)) = some (G.canon (val k)) := by
  have hblocks : blocks G.descriptors img.written = G.descriptors.flatten :=
    blocks_of_written img.short hc
  simp only [Image.content, Image.tail, hl, hblocks, ← List.append_assoc]
  exact G.decode_encode _ _

/-- Nothing but a complete image decodes: no reader sees a mixture. -/
theorem decode_incomplete (v : V) (h : ¬ img.Complete ∨ img.last = none) :
    G.decode (img.content fun k => G.message (val k)) = none := by
  have htrunc : ∀ i, G.decode (G.descriptors.take i).flatten = none := by
    intro i
    have hhead : (G.descriptors.take i).flatten <+: G.descriptors.flatten :=
      ⟨(G.descriptors.drop i).flatten, by rw [← List.flatten_append, List.take_append_drop]⟩
    refine G.decode_truncated v _ (hhead.trans (List.prefix_append _ _)) fun heq => ?_
    have hlen := congrArg List.length heq
    have hle := hhead.length_le
    have hpos := List.length_pos_iff.mpr (G.message_ne v)
    simp only [List.length_append] at hlen
    omega
  rcases blocks_cases G.descriptor_ne img.short with ⟨hall, heq⟩ | ⟨i, rest, heq⟩ | ⟨hlt, heq⟩
  · have hl : img.last = none := h.resolve_left (not_not_intro hall)
    simpa [Image.content, Image.tail, hl, heq] using htrunc G.descriptors.length
  · simp only [Image.content, heq, List.append_assoc, List.cons_append]
    exact G.decode_gap i _
  · have hl : img.last = none := by
      by_contra hne
      exact Nat.ne_of_lt hlt (img.full (Option.isSome_iff_ne_none.mpr hne))
    simpa [Image.content, Image.tail, hl, heq] using htrunc img.written.length

end Decoding

end NexFi.Posix
