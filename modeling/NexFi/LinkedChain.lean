import Mathlib.Data.List.Nodup
import Mathlib.Logic.Function.Basic

/-!
# Linked chains in a heap

Cells hold a datum and the address of the next cell. A segment leads from one
address through cells to another one; what happens to other cells does not touch
it, and giving its last cell another successor gives it another end.
-/

namespace NexFi.LinkedChain

abbrev Ptr := ℕ

structure Cell (V : Type) where
  data : V
  next : Option Ptr

abbrev Heap (V : Type) := Ptr → Option (Cell V)

variable {V : Type}

def setNext (heap : Heap V) (p : Ptr) (next : Option Ptr) : Heap V :=
  Function.update heap p ((heap p).map fun c => { c with next := next })

def free (heap : Heap V) (p : Ptr) : Heap V := Function.update heap p none

theorem setNext_ne_none {heap : Heap V} {p q : Ptr} {next : Option Ptr}
    (h : setNext heap q next p ≠ none) : heap p ≠ none := by
  by_cases hp : p = q
  · subst hp
    rw [setNext, Function.update_self] at h
    exact fun hnone => h (by rw [hnone]; rfl)
  · rwa [setNext, Function.update_of_ne hp] at h

theorem free_ne_none {heap : Heap V} {p q : Ptr} (h : free heap q p ≠ none) :
    p ≠ q ∧ heap p ≠ none := by
  have hp : p ≠ q := by
    rintro rfl
    exact h (Function.update_self ..)
  rw [free, Function.update_of_ne hp] at h
  exact ⟨hp, h⟩

/-- From `p` through the cells to `q`. -/
def Seg (heap : Heap V) : Option Ptr → List (Ptr × V) → Option Ptr → Prop
  | p, [], q => p = q
  | p, c :: cs, q => p = some c.1 ∧ ∃ next, heap c.1 = some ⟨c.2, next⟩ ∧ Seg heap next cs q

variable {heap heap' : Heap V} {p q : Option Ptr}

theorem seg_append {xs ys : List (Ptr × V)} :
    Seg heap p (xs ++ ys) q ↔ ∃ m, Seg heap p xs m ∧ Seg heap m ys q := by
  induction xs generalizing p with
  | nil => exact ⟨fun h => ⟨p, rfl, h⟩, fun ⟨m, hm, h⟩ => hm ▸ h⟩
  | cons c xs ih =>
    constructor
    · rintro ⟨hp, next, hc, hrest⟩
      obtain ⟨m, hm, hys⟩ := ih.mp hrest
      exact ⟨m, ⟨hp, next, hc, hm⟩, hys⟩
    · rintro ⟨m, ⟨hp, next, hc, hm⟩, hys⟩
      exact ⟨hp, next, hc, ih.mpr ⟨m, hm, hys⟩⟩

theorem Seg.congr {cs : List (Ptr × V)} (h : Seg heap p cs q)
    (hsame : ∀ c ∈ cs, heap' c.1 = heap c.1) : Seg heap' p cs q := by
  induction cs generalizing p with
  | nil => exact h
  | cons c cs ih =>
    obtain ⟨hp, next, hc, hrest⟩ := h
    have hrest' := ih hrest fun d hd => hsame d (List.mem_cons_of_mem c hd)
    exact ⟨hp, next, (hsame c List.mem_cons_self).trans hc, hrest'⟩

theorem Seg.cell {cs : List (Ptr × V)} (h : Seg heap p cs q) {c : Ptr × V} (hc : c ∈ cs) :
    ∃ next, heap c.1 = some ⟨c.2, next⟩ := by
  induction cs generalizing p with
  | nil => cases hc
  | cons d cs ih =>
    obtain ⟨-, next, hd, hrest⟩ := h
    rcases List.mem_cons.mp hc with rfl | hc
    · exact ⟨next, hd⟩
    · exact ih hrest hc

theorem Seg.update {cs : List (Ptr × V)} (h : Seg heap p cs q) {a : Ptr}
    (ha : a ∉ cs.map Prod.fst) (c : Option (Cell V)) : Seg (Function.update heap a c) p cs q := by
  refine h.congr fun d hd => Function.update_of_ne ?_ _ _
  intro heq
  exact ha (heq ▸ List.mem_map_of_mem hd)

theorem Seg.head {cs : List (Ptr × V)} (h : Seg heap p cs none) : p = cs.head?.map Prod.fst := by
  cases cs with
  | nil => exact h
  | cons c cs => exact h.1

theorem Seg.next {xs ys : List (Ptr × V)} {c : Ptr × V} (h : Seg heap p (xs ++ c :: ys) none) :
    heap c.1 = some ⟨c.2, ys.head?.map Prod.fst⟩ := by
  obtain ⟨m, -, -, next, hc, hrest⟩ := seg_append.mp h
  rw [hc, hrest.head]

/-- Another successor for the last cell is another end for the segment. -/
theorem Seg.relink {cs : List (Ptr × V)} {c : Ptr × V} (h : Seg heap p (cs ++ [c]) q)
    (hnodup : ((cs ++ [c]).map Prod.fst).Nodup) (r : Option Ptr) :
    Seg (setNext heap c.1 r) p (cs ++ [c]) r := by
  rw [List.map_append, List.map_cons, List.map_nil, List.nodup_append] at hnodup
  have habsent : c.1 ∉ cs.map Prod.fst := fun hc => hnodup.2.2 _ hc _ List.mem_cons_self rfl
  obtain ⟨m, hcs, rfl, next, hc, -⟩ := seg_append.mp h
  refine seg_append.mpr ⟨some c.1, hcs.update habsent _, rfl, r, ?_, rfl⟩
  rw [setNext, Function.update_self, hc]
  rfl

end NexFi.LinkedChain
