import Mathlib.Data.List.Nodup
import NexFi.StringRewriting

/-!
# Templates

Each pass replaces the placeholders of all keys, in the order in which the
object lists them, and the passes go on while the text has an opening `${`. The
counter that should end them after five goes on unchanged. Each pass is a
rewriting, so with plain keys the text that comes back does not depend on the
order of the keys.
-/

namespace NexFi.TemplateText
open StringRewriting

/-- A string of the page, by its code units. -/
abbrev Text := List UInt16

def opening : Text := [36, 123]

def placeholder (k : Text) : Text := opening ++ k ++ [125]

/-- An object of strings, in the order in which `$.each` lists it. -/
structure Obj where
  entries : List (Text × Text)
  distinct : (entries.map Prod.fst).Nodup

def substitute (obj : Obj) (templateString : Text) : Text :=
  obj.entries.foldl (fun text entry => join entry.2 (split (placeholder entry.1) text))
    templateString

/-- The result, if as many passes are enough. The first call has `recurse` 1. -/
def template (obj : Obj) (recurse : ℕ) : ℕ → Text → Option Text
  | 0, _ => none
  | passes + 1, templateString =>
    let text := substitute obj templateString
    if (indexOf opening text).isSome ∧ recurse < 5 then template obj recurse passes text
    else some text

theorem placeholder_cons (k : Text) : placeholder k = 36 :: 123 :: (k ++ [125]) := rfl

theorem placeholder_ne_nil (k : Text) : placeholder k ≠ [] := List.cons_ne_nil _ _

theorem placeholder_absent {text : Text} (h : indexOf opening text = none) (k : Text) :
    indexOf (placeholder k) text = none := by
  rw [indexOf_eq_none_iff] at h ⊢
  have hstarts : opening <+: placeholder k := ⟨k ++ [125], by simp [placeholder]⟩
  exact fun hin => h (hstarts.isInfix.trans hin)

section Passes
variable {obj : Obj} {text : Text}

theorem template_succ (passes : ℕ) :
    template obj 1 (passes + 1) text =
      if (indexOf opening (substitute obj text)).isSome then
        template obj 1 passes (substitute obj text)
      else some (substitute obj text) := by
  rw [template]
  simp

end Passes

section Order

def PlainKey (k : Text) : Prop := 36 ∉ k ∧ 123 ∉ k ∧ 125 ∉ k

instance : DecidablePred PlainKey := fun k =>
  inferInstanceAs (Decidable (36 ∉ k ∧ 123 ∉ k ∧ 125 ∉ k))

def Rule (obj : Obj) (p v : Text) : Prop := ∃ k, (k, v) ∈ obj.entries ∧ p = placeholder k

theorem marked_rule {obj : Obj} (h : ∀ entry ∈ obj.entries, PlainKey entry.1) :
    Marked (Rule obj) 36 where
  head := by
    rintro p v ⟨k, hk, rfl⟩
    refine ⟨123 :: (k ++ [125]), rfl, ?_⟩
    have hplain := (h _ hk).1
    simpa using hplain
  prefixFree := by
    rintro p v q u r s ⟨k₁, h₁, rfl⟩ ⟨k₂, h₂, rfl⟩ heq
    simp only [placeholder_cons, List.cons_append, List.append_assoc, List.nil_append,
      List.cons.injEq, true_and] at heq
    exact congrArg placeholder (append_mark_inj (h _ h₁).2.2 (h _ h₂).2.2 heq)
  functional := by
    rintro p v u ⟨k₁, h₁, rfl⟩ ⟨k₂, h₂, heq⟩
    rw [placeholder_cons, placeholder_cons, List.cons.injEq, List.cons.injEq] at heq
    have hkeys := List.append_cancel_right heq.2.2
    subst hkeys
    have hsame := List.inj_on_of_nodup_map obj.distinct h₁ h₂ rfl
    exact congrArg Prod.snd hsame

theorem normal_closed (obj : Obj) {text : Text} (h : indexOf opening text = none) :
    Normal (Rule obj) text := by
  intro t hstep
  obtain ⟨l, r, p, v, ⟨k, -, rfl⟩, rfl, -⟩ := hstep.exists_rule
  have habsent := indexOf_eq_none_iff.mp (placeholder_absent h k)
  exact habsent ⟨l, r, rfl⟩

theorem reduces_substitute (obj : Obj) {listed : Obj} (h : listed.entries ⊆ obj.entries) (text : Text) :
    Reduces (Rule obj) text (substitute listed text) := by
  rw [substitute]
  generalize listed.entries = entries at h
  induction entries generalizing text with
  | nil => exact .refl
  | cons entry entries ih =>
    have hrule : Rule obj (placeholder entry.1) entry.2 := ⟨entry.1, h List.mem_cons_self, rfl⟩
    have hreplace := reduces_replace hrule (placeholder_ne_nil entry.1) text
    exact hreplace.trans (ih _ fun e he => h (List.mem_cons_of_mem entry he))

theorem template_reduces (obj : Obj) {listed : Obj} (h : listed.entries ⊆ obj.entries) {passes : ℕ}
    {text result : Text} (hreturns : template listed 1 passes text = some result) :
    Reduces (Rule obj) text result ∧ indexOf opening result = none := by
  induction passes generalizing text with
  | zero => cases hreturns
  | succ passes ih =>
    have hpass := reduces_substitute obj h text
    rw [template_succ] at hreturns
    split_ifs at hreturns with hopen
    · obtain ⟨hrest, hclosed⟩ := ih hreturns
      exact ⟨hpass.trans hrest, hclosed⟩
    · cases hreturns
      exact ⟨hpass, Option.not_isSome_iff_eq_none.mp hopen⟩

end Order

/-- Two orders of the same entries give the same text, when both give one. -/
theorem template_any_order (obj₁ obj₂ : Obj) (h : obj₁.entries.Perm obj₂.entries)
    (hkeys : ∀ entry ∈ obj₁.entries, PlainKey entry.1) (templateString : Text) (n₁ n₂ : ℕ)
    (result₁ result₂ : Text) (h₁ : template obj₁ 1 n₁ templateString = some result₁)
    (h₂ : template obj₂ 1 n₂ templateString = some result₂) : result₁ = result₂ := by
  obtain ⟨hreduces₁, hclosed₁⟩ := template_reduces obj₁ (List.Subset.refl _) h₁
  obtain ⟨hreduces₂, hclosed₂⟩ := template_reduces obj₁ h.symm.subset h₂
  exact (marked_rule hkeys).normal_unique hreduces₁ hreduces₂ (normal_closed obj₁ hclosed₁)
    (normal_closed obj₁ hclosed₂)

def nested : Obj := ⟨[([97], placeholder [98]), ([98], [120])], by decide⟩

def nestedReversed : Obj := ⟨[([98], [120]), ([97], placeholder [98])], by decide⟩

theorem template_any_order_nested :
    (template nested 1 1 (placeholder [97])).get (by decide) =
      (template nestedReversed 1 2 (placeholder [97])).get (by decide) :=
  template_any_order nested nestedReversed (List.Perm.swap _ _ _) (by decide) (placeholder [97])
    1 2 _ _ (Option.some_get _).symm (Option.some_get _).symm

end NexFi.TemplateText
