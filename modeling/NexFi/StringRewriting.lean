import Mathlib.Data.List.Infix
import Mathlib.Logic.Relation
import Mathlib.Tactic.SplitIfs

/-!
# Rewriting of strings

A rule replaces an occurrence of its left side anywhere in a string. When every
left side starts with a mark that it has nowhere else, and none is a prefix of
another, two occurrences are the same or apart, so two different steps commute
and the last string of a rewriting does not depend on its order. Replacing all
occurrences by `split` and `join` is a rewriting.
-/

namespace NexFi.StringRewriting
variable {α : Type}

section Rules

/-- One occurrence of a left side is replaced. -/
inductive Step (R : List α → List α → Prop) : List α → List α → Prop
  | rule (l r : List α) {p v : List α} (h : R p v) : Step R (l ++ p ++ r) (l ++ v ++ r)

theorem append_mark_inj {a : α} {k₁ k₂ r s : List α} (h₁ : a ∉ k₁) (h₂ : a ∉ k₂)
    (h : k₁ ++ a :: r = k₂ ++ a :: s) : k₁ = k₂ := by
  rcases List.append_eq_append_iff.mp h with ⟨m, rfl, heq⟩ | ⟨m, rfl, heq⟩
  · cases m with
    | nil => exact (List.append_nil _).symm
    | cons c m =>
      rw [(List.cons.inj heq).1] at h₂
      exact absurd (List.mem_append_right k₁ List.mem_cons_self) h₂
  · cases m with
    | nil => exact List.append_nil _
    | cons c m =>
      rw [(List.cons.inj heq).1] at h₁
      exact absurd (List.mem_append_right k₂ List.mem_cons_self) h₁

abbrev Reduces (R : List α → List α → Prop) : List α → List α → Prop :=
  Relation.ReflTransGen (Step R)

def Normal (R : List α → List α → Prop) (s : List α) : Prop := ∀ t, ¬ Step R s t

structure Marked (R : List α → List α → Prop) (a : α) : Prop where
  head : ∀ {p v}, R p v → ∃ w, p = a :: w ∧ a ∉ w
  prefixFree : ∀ {p v q u r s}, R p v → R q u → p ++ r = q ++ s → p = q
  functional : ∀ {p v u}, R p v → R p u → v = u

variable {R : List α → List α → Prop}

theorem Step.context {s t : List α} (h : Step R s t) (l r : List α) :
    Step R (l ++ s ++ r) (l ++ t ++ r) := by
  cases h with
  | rule l' r' h =>
    have hstep := Step.rule (l ++ l') (r' ++ r) h
    simpa only [List.append_assoc] using hstep

theorem Step.exists_rule {s t : List α} (h : Step R s t) :
    ∃ l r p v, R p v ∧ s = l ++ p ++ r ∧ t = l ++ v ++ r := by
  cases h with
  | rule l r h => exact ⟨l, r, _, _, h, rfl, rfl⟩

theorem steps_apart {p v q w : List α} (l m r : List α) (hp : R p v) (hq : R q w) :
    ∃ z, Step R (l ++ v ++ (m ++ (q ++ r))) z ∧ Step R (l ++ p ++ m ++ w ++ r) z := by
  refine ⟨l ++ v ++ m ++ w ++ r, ?_, ?_⟩
  · simpa only [List.append_assoc] using Step.rule (l ++ v ++ m) r hq
  · simpa only [List.append_assoc] using Step.rule l (m ++ w ++ r) hp

theorem reduces_context {s t : List α} (h : Reduces R s t) (l r : List α) :
    Reduces R (l ++ s ++ r) (l ++ t ++ r) := by
  induction h with
  | refl => exact .refl
  | tail _ hstep ih => exact ih.tail (hstep.context l r)

namespace Marked
variable {a : α} (h : Marked R a)
include h

/-- Of two occurrences the second one starts with the first or after its end. -/
theorem occurrence_after {p v q u r₁ m r₂ : List α} (hp : R p v) (hq : R q u)
    (heq : p ++ r₁ = m ++ (q ++ r₂)) :
    (m = [] ∧ p = q ∧ r₁ = r₂) ∨ ∃ m', m = p ++ m' ∧ r₁ = m' ++ (q ++ r₂) := by
  rcases List.append_eq_append_iff.mp heq with ⟨m', hm, hr⟩ | ⟨b, hpb, hqb⟩
  · exact Or.inr ⟨m', hm, hr⟩
  · cases b with
    | nil =>
      refine Or.inr ⟨[], ?_, ?_⟩
      · simpa using hpb.symm
      · simpa using hqb.symm
    | cons c b =>
      obtain ⟨w, rfl, -⟩ := h.head hq
      obtain ⟨w', hp', hw'⟩ := h.head hp
      have hc : a = c := (List.cons.inj hqb).1
      subst hc
      cases m with
      | nil =>
        rw [List.nil_append] at hpb heq
        have hsame := h.prefixFree hp hq heq
        rw [hsame] at heq
        exact Or.inl ⟨rfl, hsame, List.append_cancel_left heq⟩
      | cons x m =>
        -- the mark would occur again in the first left side
        rw [hp'] at hpb
        have hmem : a ∈ w' := by
          rw [(List.cons.inj hpb).2]
          exact List.mem_append_right m List.mem_cons_self
        exact absurd hmem hw'

theorem step_diamond {s t u : List α} (ht : Step R s t) (hu : Step R s u) :
    t = u ∨ ∃ w, Step R t w ∧ Step R u w := by
  obtain ⟨l₁, r₁, p, v, hp, rfl, rfl⟩ := ht.exists_rule
  obtain ⟨l₂, r₂, q, w, hq, hs, rfl⟩ := hu.exists_rule
  rw [List.append_assoc, List.append_assoc] at hs
  rcases List.append_eq_append_iff.mp hs with ⟨m, rfl, heq⟩ | ⟨m, rfl, heq⟩
  · rcases h.occurrence_after hp hq heq with ⟨rfl, rfl, rfl⟩ | ⟨m', rfl, rfl⟩
    · rw [h.functional hp hq, List.append_nil]
      exact Or.inl rfl
    · obtain ⟨z, h₁, h₂⟩ := steps_apart l₁ m' r₂ hp hq
      refine Or.inr ⟨z, h₁, ?_⟩
      simpa only [List.append_assoc] using h₂
  · rcases h.occurrence_after hq hp heq with ⟨rfl, rfl, rfl⟩ | ⟨m', rfl, rfl⟩
    · rw [h.functional hp hq, List.append_nil]
      exact Or.inl rfl
    · obtain ⟨z, h₁, h₂⟩ := steps_apart l₂ m' r₁ hq hp
      refine Or.inr ⟨z, ?_, h₁⟩
      simpa only [List.append_assoc] using h₂

theorem confluent {s t u : List α} (ht : Reduces R s t) (hu : Reduces R s u) :
    Relation.Join (Reduces R) t u := by
  refine Relation.church_rosser (fun b c d hc hd => ?_) ht hu
  rcases h.step_diamond hc hd with rfl | ⟨w, h₁, h₂⟩
  · exact ⟨c, .refl, .refl⟩
  · exact ⟨w, .single h₁, .single h₂⟩

theorem normal_unique {s t u : List α} (ht : Reduces R s t) (hu : Reduces R s u)
    (hnt : Normal R t) (hnu : Normal R u) : t = u := by
  obtain ⟨w, h₁, h₂⟩ := h.confluent ht hu
  have hstays : ∀ {x : List α}, Normal R x → Reduces R x w → x = w := by
    intro x hx hxw
    rcases Relation.ReflTransGen.cases_head hxw with heq | ⟨y, hstep, -⟩
    · exact heq
    · exact absurd hstep (hx y)
  rw [hstays hnt h₁, hstays hnu h₂]

end Marked
end Rules

section Replace

def join (v : List α) : List (List α) → List α
  | [] => []
  | [s] => s
  | s :: t :: rest => s ++ v ++ join v (t :: rest)

def extend (c : α) : List (List α) → List (List α)
  | [] => [[c]]
  | s :: rest => (c :: s) :: rest

theorem join_cons (v s : List α) {rest : List (List α)} (h : rest ≠ []) :
    join v (s :: rest) = s ++ v ++ join v rest := by
  cases rest with
  | nil => exact absurd rfl h
  | cons t rest => rfl

theorem join_extend (v : List α) (c : α) (pieces : List (List α)) :
    join v (extend c pieces) = c :: join v pieces := by
  cases pieces with
  | nil => rfl
  | cons s rest =>
    cases rest with
    | nil => rfl
    | cons t rest => rfl

theorem reduces_join {R : List α → List α → Prop} {p v : List α} (h : R p v)
    (pieces : List (List α)) : Reduces R (join p pieces) (join v pieces) := by
  induction pieces with
  | nil => exact .refl
  | cons s rest ih =>
    cases rest with
    | nil => exact .refl
    | cons t rest =>
      have hrest : Reduces R (s ++ v ++ join p (t :: rest)) (s ++ v ++ join v (t :: rest)) := by
        have hcontext := reduces_context ih (s ++ v) []
        simpa only [List.append_nil] using hcontext
      exact .head (.rule s _ h) hrest

variable [DecidableEq α]

/-- The pieces between the occurrences of `sep`, taken from the left, after as
many letters as are still to skip. -/
def splitFrom (sep : List α) : ℕ → List α → List (List α)
  | _, [] => [[]]
  | skip + 1, _ :: s => splitFrom sep skip s
  | 0, c :: s =>
    if sep.isPrefixOf (c :: s) then [] :: splitFrom sep (sep.length - 1) s
    else extend c (splitFrom sep 0 s)

def split (sep s : List α) : List (List α) := splitFrom sep 0 s

def indexOf (p : List α) : List α → Option ℕ
  | [] => if p = [] then some 0 else none
  | c :: s => if p.isPrefixOf (c :: s) then some 0 else (indexOf p s).map (· + 1)

theorem splitFrom_ne_nil (sep : List α) (skip : ℕ) (s : List α) : splitFrom sep skip s ≠ [] := by
  induction s generalizing skip with
  | nil => cases skip <;> exact List.cons_ne_nil _ _
  | cons c s ih =>
    cases skip with
    | succ skip => exact ih skip
    | zero =>
      rw [splitFrom]
      split_ifs
      · exact List.cons_ne_nil _ _
      · cases hrest : splitFrom sep 0 s with
        | nil => exact absurd hrest (ih 0)
        | cons t rest => exact List.cons_ne_nil _ _

theorem join_splitFrom {sep : List α} (hsep : sep ≠ []) (skip : ℕ) (s : List α) :
    join sep (splitFrom sep skip s) = s.drop skip := by
  induction s generalizing skip with
  | nil => cases skip <;> rfl
  | cons c s ih =>
    cases skip with
    | succ skip => exact ih skip
    | zero =>
      rw [splitFrom]
      split_ifs with hp
      · obtain ⟨rest, hrest⟩ := List.isPrefixOf_iff_prefix.mp hp
        obtain ⟨d, sep', rfl⟩ := List.exists_cons_of_ne_nil hsep
        rw [List.cons_append, List.cons.injEq] at hrest
        obtain ⟨rfl, rfl⟩ := hrest
        rw [join_cons _ _ (splitFrom_ne_nil _ _ _), ih]
        simp
      · rw [join_extend, ih]
        rfl

theorem join_split {sep : List α} (hsep : sep ≠ []) (s : List α) : join sep (split sep s) = s :=
  join_splitFrom hsep 0 s

/-- Replacing every occurrence is a rewriting. -/
theorem reduces_replace {R : List α → List α → Prop} {p v : List α} (h : R p v) (hp : p ≠ [])
    (s : List α) : Reduces R s (join v (split p s)) := by
  have hjoin := reduces_join h (split p s)
  rwa [join_split hp] at hjoin

theorem indexOf_eq_none_iff {p s : List α} : indexOf p s = none ↔ ¬ p <:+: s := by
  induction s with
  | nil =>
    rw [indexOf, List.infix_nil]
    split_ifs with hp <;> simp [hp]
  | cons c s ih =>
    rw [indexOf, List.infix_cons_iff, ← List.isPrefixOf_iff_prefix]
    split_ifs with hp
    · simp [hp]
    · simp [hp, ih]

end Replace
end NexFi.StringRewriting
