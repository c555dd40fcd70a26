import Mathlib.Data.List.Basic

/-!
# Texts that are split into fields

Delimiters separate the fields, and any number of them does it as one does: no
field is empty.
-/

namespace NexFi.FieldText

variable {α : Type} {p : α → Bool} {word gap text rest : List α}

def fields (p : α → Bool) (text : List α) : List (List α) :=
  (text.splitOnP p).filter fun word => !word.isEmpty

/-- There is no delimiter. -/
def Free (p : α → Bool) (text : List α) : Prop := ∀ c ∈ text, p c = false

theorem free_of_all (h : (text.all fun c => !p c) = true) : Free p text := by
  intro c hc
  have hall := List.all_eq_true.mp h c hc
  simpa using hall

theorem Free.append (h : Free p text) (h' : Free p rest) : Free p (text ++ rest) :=
  fun c hc => (List.mem_append.mp hc).elim (h c) (h' c)

/-- With fewer delimiters there still is none. -/
theorem Free.mono {q : α → Bool} (hq : ∀ c, q c = true → p c = true) (h : Free p text) : Free q text := by
  intro c hc
  have hfree := h c hc
  have hsub := hq c
  cases hqc : q c
  · rfl
  · rw [hsub hqc] at hfree
    cases hfree

theorem Free.flatMap {β : Type} {f : β → List α} {items : List β} (h : ∀ x ∈ items, Free p (f x)) :
    Free p (items.flatMap f) := by
  intro c hc
  obtain ⟨x, hx, hmem⟩ := List.mem_flatMap.mp hc
  exact h x hx c hmem

theorem Free.leftpad {pad : α} (hpad : p pad = false) (n : ℕ) (h : Free p text) :
    Free p (text.leftpad n pad) := by
  refine Free.append (fun c hc => ?_) h
  rw [List.eq_of_mem_replicate hc]
  exact hpad

structure IsField (p : α → Bool) (word : List α) : Prop where
  nonempty : word ≠ []
  free : Free p word

@[simp] theorem fields_nil : fields p [] = [] := rfl

theorem fields_append_cons {sep : α} (hsep : p sep = true) (text rest : List α) :
    fields p (text ++ sep :: rest) = fields p text ++ fields p rest := by
  rw [fields, List.splitOnP_append_cons text rest hsep, List.filter_append]
  rfl

theorem fields_field (h : IsField p word) : fields p word = [word] := by
  simpa [fields, List.splitOnP_eq_singleton h.free] using h.nonempty

theorem fields_gap (h : ∀ c ∈ gap, p c = true) (rest : List α) :
    fields p (gap ++ rest) = fields p rest := by
  induction gap with
  | nil => rfl
  | cons c gap ih =>
    have hc := fields_append_cons (h c List.mem_cons_self) [] (gap ++ rest)
    rw [List.cons_append, ← List.nil_append (c :: (gap ++ rest)), hc, fields_nil, List.nil_append]
    exact ih fun c' hc' => h c' (List.mem_cons_of_mem c hc')

theorem fields_cons {sep : α} (hsep : p sep = true) (rest : List α) :
    fields p (sep :: rest) = fields p rest := by
  have hgap : ∀ c ∈ [sep], p c = true := by simpa using hsep
  exact fields_gap hgap rest

/-- The next field, and what separates it from the rest. -/
theorem fields_next (hword : IsField p word) {sep : α} (hsep : p sep = true) (rest : List α) :
    fields p (word ++ sep :: rest) = word :: fields p rest := by
  rw [fields_append_cons hsep, fields_field hword]
  rfl

/-- Padding on the left does not belong to the field. -/
theorem fields_leftpad {pad : α} (hpad : p pad = true) (n : ℕ) (word rest : List α) :
    fields p (word.leftpad n pad ++ rest) = fields p (word ++ rest) := by
  rw [List.leftpad, List.append_assoc]
  exact fields_gap (fun c hc => by rw [List.eq_of_mem_replicate hc]; exact hpad) _

/-- Lines that each come to their end. -/
theorem fields_lines {sep : α} (hsep : p sep = true) {lines : List (List α)}
    (h : ∀ line ∈ lines, IsField p line) (rest : List α) :
    fields p ((lines.flatMap fun line => line ++ [sep]) ++ rest) = lines ++ fields p rest := by
  induction lines with
  | nil => rfl
  | cons line lines ih =>
    have hline := fields_next (h line List.mem_cons_self) hsep
      ((lines.flatMap fun line => line ++ [sep]) ++ rest)
    rw [List.flatMap_cons, List.append_assoc, List.append_assoc, List.singleton_append, hline,
      ih fun line' hline' => h line' (List.mem_cons_of_mem line hline')]
    rfl

theorem field_of_all (hne : text.isEmpty = false) (h : (text.all fun c => !p c) = true) : IsField p text :=
  ⟨fun hnil => absurd hne (by simp [hnil]), free_of_all h⟩

theorem IsField.append (h : IsField p word) (h' : Free p rest) : IsField p (word ++ rest) :=
  ⟨List.append_ne_nil_of_left_ne_nil h.nonempty rest, h.free.append h'⟩

theorem IsField.mono {q : α → Bool} (hq : ∀ c, q c = true → p c = true) (h : IsField p word) :
    IsField q word :=
  ⟨h.nonempty, h.free.mono hq⟩

end NexFi.FieldText
