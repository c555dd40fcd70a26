import Mathlib.Algebra.BigOperators.Fin
import Mathlib.Data.Set.Finite.Lattice
import NexFi.ChainTable
import NexFi.LinkedChain

/-!
# The hash table of the exchange daemon

Elements are linked into the chains of a table. An iterator remembers the element
it gave out and the place that pointed to it, so that the loop body may remove
that element. `none` stands for the use of an element that is freed, or for a loop
that was given too few rounds: from a table that is well formed neither occurs.
-/

namespace NexFi.AlfredHash
open ChainTable LinkedChain

structure Hashtable (V : Type) (size : ℕ) where
  heap : Heap V
  table : Fin size → Option Ptr
  elements : ℤ

/-- `firstBucket` is the slot of the table that pointed to the element. -/
structure Iterator (size : ℕ) where
  index : Option (Fin size)
  bucket : Option Ptr
  prevBucket : Option Ptr
  firstBucket : Option (Fin size)

variable {K V : Type} [DecidableEq K] {H : Hashing K V}

def hashNew (H : Hashing K V) : Hashtable V H.size := ⟨fun _ => none, fun _ => none, 0⟩

section Walk
variable (hash : Hashtable V H.size)

def findFrom (k : K) : ℕ → Option Ptr → Option (Option V)
  | 0, _ => none
  | _ + 1, none => some none
  | rounds + 1, some p => do
    let bucket ← hash.heap p
    if H.key bucket.data = k then some (some bucket.data) else findFrom k rounds bucket.next

def hashFind (rounds : ℕ) (k : K) : Option (Option V) :=
  findFrom (H := H) hash k rounds (hash.table (H.choose k))

/-- The last element of the chain, or that there is a duplicate. -/
def lastFrom (k : K) : ℕ → Option Ptr → Option Ptr → Option (Option (Option Ptr))
  | 0, _, _ => none
  | _ + 1, prev, none => some (some prev)
  | rounds + 1, _, some p => do
    let bucket ← hash.heap p
    if H.key bucket.data = k then some none else lastFrom k rounds (some p) bucket.next

/-- A new element behind the last one of its chain. -/
def linkBucket (index : Fin H.size) (prev : Option Ptr) (v : V) (p : Ptr) : Hashtable V H.size :=
  let heap := Function.update hash.heap p (some ⟨v, none⟩)
  match prev with
  | none => ⟨heap, Function.update hash.table index (some p), hash.elements + 1⟩
  | some q => ⟨setNext heap q (some p), hash.table, hash.elements + 1⟩

/-- `p` is what `malloc` gives. -/
def hashAdd (rounds : ℕ) (v : V) (p : Ptr) : Option (Option (Hashtable V H.size)) := do
  let index := H.choose (H.key v)
  match ← lastFrom (H := H) hash (H.key v) rounds none (hash.table index) with
  | none => some none
  | some prev => some (some (linkBucket (H := H) hash index prev v p))

def hashRemoveBucket (it : Iterator H.size) : Option (V × Hashtable V H.size) := do
  let p ← it.bucket
  let bucket ← hash.heap p
  match it.prevBucket, it.firstBucket with
  | some q, _ =>
    let _ ← hash.heap q
    some (bucket.data, ⟨free (setNext hash.heap q bucket.next) p, hash.table, hash.elements - 1⟩)
  | none, some i =>
    some (bucket.data,
      ⟨free hash.heap p, Function.update hash.table i bucket.next, hash.elements - 1⟩)
  | none, none => some (bucket.data, ⟨free hash.heap p, hash.table, hash.elements - 1⟩)

def removeFrom (k : K) (index : Fin H.size) :
    ℕ → Option Ptr → Option Ptr → Option (Option V × Hashtable V H.size)
  | 0, _, _ => none
  | _ + 1, _, none => some (none, hash)
  | rounds + 1, prev, some p => do
    let bucket ← hash.heap p
    if H.key bucket.data = k then
      let first := if hash.table index = some p then some index else none
      let (v, hash) ← hashRemoveBucket (H := H) hash ⟨some index, some p, prev, first⟩
      some (some v, hash)
    else removeFrom k index rounds (some p) bucket.next

def hashRemove (rounds : ℕ) (k : K) : Option (Option V × Hashtable V H.size) :=
  removeFrom (H := H) hash k (H.choose k) rounds none (hash.table (H.choose k))

/-- The first chain that is not empty, from an index on. -/
def nextChain (indices : List (Fin H.size)) : Option (Iterator H.size) :=
  indices.findSome? fun i => (hash.table i).map fun p => ⟨some i, some p, none, some i⟩

def after (index : Option (Fin H.size)) : List (Fin H.size) :=
  match index with
  | none => List.finRange H.size
  | some i => (List.finRange H.size).drop (i + 1)

/-- The element behind the iterator's, or else the next chain. -/
def advance (it : Iterator H.size) : Option (Option (Iterator H.size)) :=
  match it.bucket with
  | none => some (nextChain (H := H) hash (after it.index))
  | some p => do
    let bucket ← hash.heap p
    match bucket.next with
    | some q => some (some { it with prevBucket := some p, bucket := some q, firstBucket := none })
    | none => some (nextChain (H := H) hash (after it.index))

def hashIterate (it : Iterator H.size) : Option (Option (Iterator H.size)) :=
  match it.bucket, it.firstBucket, it.prevBucket with
  | some p, some i, _ =>
    if hash.table i ≠ some p then
      match hash.table i with
      | some q => some (some { it with prevBucket := none, bucket := some q, firstBucket := it.index })
      | none => advance (H := H) hash { it with bucket := none }
    else advance (H := H) hash it
  | some p, none, some q => do
    let prev ← hash.heap q
    advance (H := H) hash (if prev.next ≠ some p then { it with bucket := some q } else it)
  | _, _, _ => advance (H := H) hash it

end Walk

/-- A loop over all elements that removes those `stale` holds of. -/
def purge (stale : V → Bool) : ℕ → Hashtable V H.size → Iterator H.size →
    Option (List V × Hashtable V H.size)
  | 0, _, _ => none
  | rounds + 1, hash, it => do
    match ← hashIterate (H := H) hash it with
    | none => some ([], hash)
    | some it =>
      let bucket ← hash.heap (← it.bucket)
      let hash ← if stale bucket.data then (hashRemoveBucket (H := H) hash it).map Prod.snd else some hash
      let (seen, hash) ← purge stale rounds hash it
      some (bucket.data :: seen, hash)

def start (size : ℕ) : Iterator size := ⟨none, none, none, none⟩

section Represented

abbrev Cells (V : Type) (size : ℕ) := Fin size → List (Ptr × V)

/-- The chains hold these cells, each at an address of its own, and the heap holds no others. -/
structure Linked (hash : Hashtable V H.size) (cells : Cells V H.size) : Prop where
  chain : ∀ i, Seg hash.heap (hash.table i) (cells i) none
  nodup : ∀ i, ((cells i).map Prod.fst).Nodup
  apart : ∀ i j, i ≠ j → ∀ a ∈ (cells i).map Prod.fst, a ∉ (cells j).map Prod.fst
  only : ∀ p, hash.heap p ≠ none → ∃ i, p ∈ (cells i).map Prod.fst
  count : hash.elements = ∑ i, ((cells i).length : ℤ)

/-- The hash holds the table. -/
def Represents (hash : Hashtable V H.size) (t : Table H) : Prop :=
  ∃ cells, Linked (H := H) hash cells ∧ ∀ i, (cells i).map Prod.snd = t.chains i

omit [DecidableEq K] in
theorem represents_hashNew : Represents (hashNew H) (Table.empty : Table H) := by
  refine ⟨fun _ => [], ⟨fun _ => rfl, fun _ => List.nodup_nil, ?_, ?_, ?_⟩, fun _ => rfl⟩
  · intro i j _ a ha
    cases ha
  · intro p hp
    exact absurd rfl hp
  · simp [hashNew]

variable {hash : Hashtable V H.size} {cells : Cells V H.size}

omit [DecidableEq K] in
theorem sum_update (cells : Cells V H.size) (i : Fin H.size) (new : List (Ptr × V)) :
    ∑ j, ((Function.update cells i new j).length : ℤ) =
      ∑ j, ((cells j).length : ℤ) + new.length - (cells i).length := by
  rw [← Finset.sum_erase_add _ _ (Finset.mem_univ i),
    ← Finset.sum_erase_add _ (fun j => ((cells j).length : ℤ)) (Finset.mem_univ i),
    Function.update_self]
  have hrest : ∑ j ∈ Finset.univ.erase i, ((Function.update cells i new j).length : ℤ) =
      ∑ j ∈ Finset.univ.erase i, ((cells j).length : ℤ) :=
    Finset.sum_congr rfl fun j hj => by rw [Function.update_of_ne (Finset.ne_of_mem_erase hj)]
  rw [hrest]
  omega

omit [DecidableEq K] in
/-- `p` is not in use. -/
theorem Linked.notMem (h : Linked (H := H) hash cells) {p : Ptr} (hp : hash.heap p = none)
    (i : Fin H.size) : p ∉ (cells i).map Prod.fst := by
  intro hmem
  obtain ⟨c, hc, rfl⟩ := List.mem_map.mp hmem
  obtain ⟨next, hnext⟩ := (h.chain i).cell hc
  rw [hp] at hnext
  cases hnext

omit [DecidableEq K] in
/-- Other cells in one chain, the rest as it was. -/
theorem Linked.update (h : Linked (H := H) hash cells) {hash' : Hashtable V H.size}
    (i : Fin H.size) {new : List (Ptr × V)} (htable : ∀ j, j ≠ i → hash'.table j = hash.table j)
    (hheap : ∀ j, j ≠ i → ∀ c ∈ cells j, hash'.heap c.1 = hash.heap c.1)
    (hchain : Seg hash'.heap (hash'.table i) new none) (hnodup : (new.map Prod.fst).Nodup)
    (hapart : ∀ j, j ≠ i → ∀ a ∈ new.map Prod.fst, a ∉ (cells j).map Prod.fst)
    (honly : ∀ p, hash'.heap p ≠ none →
      p ∈ new.map Prod.fst ∨ ∃ j, j ≠ i ∧ p ∈ (cells j).map Prod.fst)
    (hcount : hash'.elements = hash.elements + new.length - (cells i).length) :
    Linked (H := H) hash' (Function.update cells i new) where
  chain := by
    intro j
    by_cases hj : j = i
    · subst hj
      rwa [Function.update_self]
    · rw [Function.update_of_ne hj, htable j hj]
      exact (h.chain j).congr (hheap j hj)
  nodup := by
    intro j
    by_cases hj : j = i
    · subst hj
      rwa [Function.update_self]
    · rw [Function.update_of_ne hj]
      exact h.nodup j
  apart := by
    intro j k hjk a ha
    by_cases hj : j = i
    · subst hj
      rw [Function.update_self] at ha
      rw [Function.update_of_ne (Ne.symm hjk)]
      exact hapart k (Ne.symm hjk) a ha
    · rw [Function.update_of_ne hj] at ha
      by_cases hk : k = i
      · subst hk
        rw [Function.update_self]
        exact fun hnew => hapart j hj a hnew ha
      · rw [Function.update_of_ne hk]
        exact h.apart j k hjk a ha
  only := by
    intro p hp
    rcases honly p hp with hnew | ⟨j, hj, hold⟩
    · exact ⟨i, by rwa [Function.update_self]⟩
    · exact ⟨j, by rwa [Function.update_of_ne hj]⟩
  count := by rw [sum_update, hcount, h.count]

section Find

theorem findFrom_seg {p : Option Ptr} {chain : List (Ptr × V)} (h : Seg hash.heap p chain none)
    (k : K) {rounds : ℕ} (hrounds : chain.length < rounds) :
    findFrom (H := H) hash k rounds p = some (findKey H.key k (chain.map Prod.snd)) := by
  induction chain generalizing p rounds with
  | nil =>
    obtain ⟨n, rfl⟩ := Nat.exists_eq_add_of_lt hrounds
    rw [show p = none from h]
    rfl
  | cons c chain ih =>
    obtain ⟨rfl, next, hc, hrest⟩ := h
    cases rounds with
    | zero => cases hrounds
    | succ rounds =>
      rw [findFrom, hc]
      by_cases hk : H.key c.2 = k
      · simp [hk, findKey]
      · simp only [Option.bind_eq_bind, Option.bind_some, if_neg hk]
        rw [ih hrest (by simpa using hrounds)]
        simp [findKey, hk]

theorem lastFrom_seg {p : Option Ptr} {chain : List (Ptr × V)} (h : Seg hash.heap p chain none)
    (k : K) (prev : Option Ptr) {rounds : ℕ} (hrounds : chain.length < rounds) :
    lastFrom (H := H) hash k rounds prev p =
      some (if (findKey H.key k (chain.map Prod.snd)).isSome then none
        else some ((chain.getLast?.map Prod.fst).or prev)) := by
  induction chain generalizing p prev rounds with
  | nil =>
    obtain ⟨n, rfl⟩ := Nat.exists_eq_add_of_lt hrounds
    rw [show p = none from h]
    rfl
  | cons c chain ih =>
    obtain ⟨rfl, next, hc, hrest⟩ := h
    cases rounds with
    | zero => cases hrounds
    | succ rounds =>
      rw [lastFrom, hc]
      by_cases hk : H.key c.2 = k
      · simp [hk, findKey]
      · simp only [Option.bind_eq_bind, Option.bind_some, if_neg hk]
        have hlast : ((c :: chain).getLast?.map Prod.fst).or prev =
            (chain.getLast?.map Prod.fst).or (some c.1) := by
          rw [List.getLast?_cons]
          cases chain.getLast? <;> rfl
        have hfind : findKey H.key k ((c :: chain).map Prod.snd) =
            findKey H.key k (chain.map Prod.snd) := by
          simp [findKey, hk]
        rw [ih hrest _ (by simpa using hrounds), hlast, hfind]

variable {t : Table H}

omit [DecidableEq K] in
theorem length_cells_lt (hvalues : ∀ i, (cells i).map Prod.snd = t.chains i) (i : Fin H.size)
    {rounds : ℕ} (hrounds : t.entries.length < rounds) : (cells i).length < rounds := by
  rw [← List.length_map (f := Prod.snd), hvalues]
  exact (t.length_chain_le i).trans_lt hrounds

theorem hashFind_spec (h : Represents (H := H) hash t) (k : K) {rounds : ℕ}
    (hrounds : t.entries.length < rounds) :
    hashFind (H := H) hash rounds k = some (t.find k) := by
  obtain ⟨cells, hlinked, hvalues⟩ := h
  rw [hashFind, findFrom_seg (hlinked.chain _) k (length_cells_lt hvalues _ hrounds), hvalues]
  rfl

end Find

section Add

omit [DecidableEq K] in
theorem linked_linkBucket (h : Linked (H := H) hash cells) (i : Fin H.size) (v : V) {p : Ptr}
    (hp : hash.heap p = none) :
    Linked (H := H) (linkBucket (H := H) hash i ((cells i).getLast?.map Prod.fst) v p)
      (Function.update cells i (cells i ++ [(p, v)])) := by
  have hfresh := h.notMem hp
  have hnodup : ((cells i ++ [(p, v)]).map Prod.fst).Nodup := by
    rw [List.map_append]
    refine List.Nodup.append (h.nodup i) (List.nodup_singleton _) ?_
    exact List.disjoint_singleton.mpr (hfresh i)
  have hapart : ∀ j, j ≠ i → ∀ a ∈ (cells i ++ [(p, v)]).map Prod.fst,
      a ∉ (cells j).map Prod.fst := by
    intro j hj a ha
    rw [List.map_append, List.mem_append] at ha
    rcases ha with ha | ha
    · exact h.apart i j (Ne.symm hj) a ha
    · rw [List.mem_singleton.mp ha]
      exact hfresh j
  have hne : ∀ j, ∀ c ∈ cells j, c.1 ≠ p := fun j c hc heq =>
    hfresh j (heq ▸ List.mem_map_of_mem hc)
  have hold := (h.chain i).update (hfresh i) (some ⟨v, none⟩)
  have honly : ∀ a, Function.update hash.heap p (some ⟨v, none⟩) a ≠ none →
      a ∈ (cells i ++ [(p, v)]).map Prod.fst ∨ ∃ j, j ≠ i ∧ a ∈ (cells j).map Prod.fst := by
    intro a ha
    rw [List.map_append, List.mem_append]
    by_cases hap : a = p
    · exact Or.inl (Or.inr (List.mem_singleton.mpr hap))
    · rw [Function.update_of_ne hap] at ha
      obtain ⟨j, hj⟩ := h.only a ha
      by_cases hji : j = i
      · exact Or.inl (Or.inl (hji ▸ hj))
      · exact Or.inr ⟨j, hji, hj⟩
  cases hcells : cells i using List.reverseRecOn with
  | nil =>
    rw [hcells] at hnodup hapart honly
    refine h.update i (fun j hj => Function.update_of_ne hj _ _)
      (fun j _ c hc => Function.update_of_ne (hne j c hc) _ _) ?_ hnodup hapart honly ?_
    · exact ⟨Function.update_self .., none, Function.update_self .., rfl⟩
    · simp [linkBucket, hcells]
  | append_singleton xs d =>
    rw [hcells] at hnodup hapart hold
    have hd : d.1 ≠ p := hne i d (by simp [hcells])
    have hlast : (cells i).getLast?.map Prod.fst = some d.1 := by simp [hcells]
    rw [← hcells] at hnodup hapart ⊢
    rw [hlast]
    refine h.update i (fun _ _ => rfl) (fun j hj c hc => ?_) ?_ hnodup hapart
      (fun a ha => honly a (setNext_ne_none ha)) ?_
    · have hcd : c.1 ≠ d.1 := by
        intro heq
        refine h.apart i j (Ne.symm hj) d.1 ?_ (heq ▸ List.mem_map_of_mem hc)
        exact List.mem_map_of_mem (by simp [hcells])
      exact (Function.update_of_ne hcd _ _).trans (Function.update_of_ne (hne j c hc) _ _)
    · rw [hcells]
      refine seg_append.mpr ⟨some p, hold.relink (hcells ▸ h.nodup i) (some p), rfl, none, ?_, rfl⟩
      exact (Function.update_of_ne (Ne.symm hd) _ _).trans (Function.update_self ..)
    · simp only [linkBucket, List.length_append, List.length_singleton]
      omega

variable {t : Table H}

/-- A key that is there is not added again. -/
theorem hashAdd_duplicate (h : Represents (H := H) hash t) {v w : V}
    (hthere : t.find (H.key v) = some w) (p : Ptr) {rounds : ℕ}
    (hrounds : t.entries.length < rounds) : hashAdd (H := H) hash rounds v p = some none := by
  obtain ⟨cells, hlinked, hvalues⟩ := h
  have hlast := lastFrom_seg (H := H) (p := hash.table (H.choose (H.key v))) (hlinked.chain _)
    (H.key v) none (length_cells_lt hvalues _ hrounds)
  rw [hvalues, show findKey H.key (H.key v) _ = some w from hthere] at hlast
  simp only [hashAdd, hlast]
  rfl

theorem hashAdd_spec (h : Represents (H := H) hash t) {v : V} (hnone : t.find (H.key v) = none)
    {p : Ptr} (hp : hash.heap p = none) {rounds : ℕ} (hrounds : t.entries.length < rounds) :
    ∃ hash', hashAdd (H := H) hash rounds v p = some (some hash') ∧
      Represents (H := H) hash' (t.put v) := by
  obtain ⟨cells, hlinked, hvalues⟩ := h
  have hlast := lastFrom_seg (H := H) (p := hash.table (H.choose (H.key v))) (hlinked.chain _)
    (H.key v) none (length_cells_lt hvalues _ hrounds)
  rw [hvalues, show findKey H.key (H.key v) _ = none from hnone, Option.or_none] at hlast
  refine ⟨_, by simp only [hashAdd, hlast]; rfl, _, linked_linkBucket hlinked _ v hp, fun j => ?_⟩
  rw [t.chains_put hnone]
  by_cases hj : j = H.choose (H.key v)
  · subst hj
    rw [Function.update_self, Function.update_self, List.map_append, hvalues]
    rfl
  · rw [Function.update_of_ne hj, Function.update_of_ne hj, hvalues]

end Add

section Remove

/-- The iterator at an element behind the ones of `before`. -/
def behind (i : Fin H.size) (before : List (Ptr × V)) (p : Ptr) : Iterator H.size :=
  ⟨some i, some p, before.getLast?.map Prod.fst, if before.isEmpty then some i else none⟩

omit [DecidableEq K] in
theorem notMem_middle {before rest : List (Ptr × V)} {c : Ptr × V}
    (h : ((before ++ c :: rest).map Prod.fst).Nodup) : c.1 ∉ (before ++ rest).map Prod.fst := by
  rw [List.map_append, List.map_cons, List.nodup_middle, List.nodup_cons] at h
  rw [List.map_append]
  exact h.1

omit [DecidableEq K] in
/-- What is removed is freed, and no chain has it any more. -/
theorem removeBucket_spec (h : Linked (H := H) hash cells) {i : Fin H.size}
    {before rest : List (Ptr × V)} {c : Ptr × V} (hcells : cells i = before ++ c :: rest) :
    ∃ hash', hashRemoveBucket (H := H) hash (behind i before c.1) = some (c.2, hash') ∧
      Linked (H := H) hash' (Function.update cells i (before ++ rest)) ∧
      ∀ j, c.1 ∉ (Function.update cells i (before ++ rest) j).map Prod.fst := by
  have hchain := h.chain i
  have hnodup := h.nodup i
  rw [hcells] at hchain hnodup
  have hc := hchain.next
  have habsent := notMem_middle hnodup
  have hother : ∀ j, j ≠ i → c.1 ∉ (cells j).map Prod.fst := by
    intro j hj
    refine h.apart i j (Ne.symm hj) c.1 ?_
    rw [hcells]
    simp
  have hnodup' : ((before ++ rest).map Prod.fst).Nodup := by
    rw [List.map_append, List.map_cons, List.nodup_middle, List.nodup_cons] at hnodup
    rw [List.map_append]
    exact hnodup.2
  have hapart : ∀ j, j ≠ i → ∀ a ∈ (before ++ rest).map Prod.fst, a ∉ (cells j).map Prod.fst := by
    intro j hj a ha
    refine h.apart i j (Ne.symm hj) a ?_
    rw [hcells]
    refine List.map_subset _ ?_ ha
    intro b hb
    simp only [List.mem_append, List.mem_cons] at hb ⊢
    tauto
  have hgone : ∀ j, c.1 ∉ (Function.update cells i (before ++ rest) j).map Prod.fst := by
    intro j
    by_cases hj : j = i
    · subst hj
      rwa [Function.update_self]
    · rw [Function.update_of_ne hj]
      exact hother j hj
  have hcount : hash.elements - 1 =
      hash.elements + ((before ++ rest).length : ℤ) - ((cells i).length : ℤ) := by
    rw [hcells]
    simp only [List.length_append, List.length_cons]
    omega
  have hkept : ∀ j, j ≠ i → ∀ d ∈ cells j, d.1 ≠ c.1 := fun j hj d hd heq =>
    hother j hj (heq ▸ List.mem_map_of_mem hd)
  have honly : ∀ a, a ≠ c.1 → hash.heap a ≠ none →
      a ∈ (before ++ rest).map Prod.fst ∨ ∃ j, j ≠ i ∧ a ∈ (cells j).map Prod.fst := by
    intro a hac ha
    obtain ⟨j, hj⟩ := h.only a ha
    by_cases hji : j = i
    · rw [hji, hcells, List.map_append, List.map_cons] at hj
      rw [List.map_append]
      simp only [List.mem_append, List.mem_cons] at hj ⊢
      tauto
    · exact Or.inr ⟨j, hji, hj⟩
  cases before using List.reverseRecOn with
  | nil =>
    obtain ⟨hhead, next, hc', hrest⟩ := hchain
    have hrest' : Seg (free hash.heap c.1) next rest none := hrest.update habsent none
    refine ⟨⟨free hash.heap c.1, Function.update hash.table i next, hash.elements - 1⟩, ?_, ?_, hgone⟩
    · simp [hashRemoveBucket, behind, hc']
    · refine h.update i (fun j hj => Function.update_of_ne hj _ _)
        (fun j hj d hd => Function.update_of_ne (hkept j hj d hd) _ _) ?_ hnodup' hapart
        (fun a ha => honly a (free_ne_none ha).1 (free_ne_none ha).2) hcount
      simpa using hrest'
  | append_singleton xs q =>
    have hq := (show Seg hash.heap (hash.table i) (xs ++ q :: c :: rest) none by
      simpa using hchain).next
    obtain ⟨m, hfirst, hmiddle, next, hc', hrest⟩ := seg_append.mp hchain
    have hrelinked := hfirst.relink (by
      rw [List.map_append, List.nodup_append] at hnodup
      exact hnodup.1) next
    have hqnot : q.1 ∉ rest.map Prod.fst := by
      have := hnodup'
      simp only [List.map_append, List.append_assoc, List.map_cons, List.map_nil] at this
      rw [List.nodup_append, List.singleton_append, List.nodup_cons] at this
      exact this.2.1.1
    have hwhole : Seg (setNext hash.heap q.1 next) (hash.table i) (xs ++ [q] ++ rest) none :=
      seg_append.mpr ⟨next, hrelinked, hrest.update hqnot _⟩
    refine ⟨⟨free (setNext hash.heap q.1 next) c.1, hash.table, hash.elements - 1⟩, ?_, ?_, hgone⟩
    · simp [hashRemoveBucket, behind, hc', hq]
    · have hfreed : Seg (free (setNext hash.heap q.1 next) c.1) (hash.table i) (xs ++ [q] ++ rest)
          none := hwhole.update habsent none
      refine h.update i (fun _ _ => rfl) (fun j hj d hd => ?_) hfreed hnodup' hapart
        (fun a ha => honly a (free_ne_none ha).1 (setNext_ne_none (free_ne_none ha).2)) hcount
      have hdq : d.1 ≠ q.1 := by
        intro heq
        refine h.apart i j (Ne.symm hj) q.1 ?_ (heq ▸ List.mem_map_of_mem hd)
        rw [hcells]
        simp
      exact (Function.update_of_ne (hkept j hj d hd) _ _).trans (Function.update_of_ne hdq _ _)

theorem removeFrom_seg (h : Linked (H := H) hash cells) (k : K) {i : Fin H.size}
    {before rest : List (Ptr × V)} (hcells : cells i = before ++ rest) {rounds : ℕ}
    (hrounds : rest.length < rounds) :
    ∃ hash' new, removeFrom (H := H) hash k i rounds (before.getLast?.map Prod.fst)
        (rest.head?.map Prod.fst) = some (findKey H.key k (rest.map Prod.snd), hash') ∧
      Linked (H := H) hash' (Function.update cells i (before ++ new)) ∧
      new = rest.eraseP fun c => H.key c.2 = k := by
  induction rest generalizing before rounds with
  | nil =>
    obtain ⟨n, rfl⟩ := Nat.exists_eq_add_of_lt hrounds
    refine ⟨hash, [], rfl, ?_, rfl⟩
    rw [← hcells, Function.update_eq_self]
    exact h
  | cons c rest ih =>
    cases rounds with
    | zero => cases hrounds
    | succ rounds =>
      have hchain := h.chain i
      rw [hcells] at hchain
      have hc := hchain.next
      simp only [List.head?_cons, Option.map_some, removeFrom, hc, Option.bind_eq_bind,
        Option.bind_some]
      by_cases hk : H.key c.2 = k
      · have hfirst : (if hash.table i = some c.1 then some i else none) =
            if before.isEmpty then some i else none := by
          rw [hchain.head]
          cases before with
          | nil => simp
          | cons b before =>
            have hbc : b.1 ≠ c.1 := by
              have hnodup := h.nodup i
              rw [hcells, List.cons_append, List.map_cons, List.nodup_cons] at hnodup
              exact fun heq => hnodup.1 (heq ▸ by simp)
            simp [hbc]
        obtain ⟨hash', hremoved, hlinked, -⟩ := removeBucket_spec h hcells
        rw [behind] at hremoved
        refine ⟨hash', rest, ?_, hlinked, by simp [hk]⟩
        have hfind : findKey H.key k ((c :: rest).map Prod.snd) = some c.2 := by
          simp [findKey, hk]
        rw [if_pos hk, hfirst, hremoved, hfind]
        rfl
      · rw [if_neg hk]
        have hcells' : cells i = (before ++ [c]) ++ rest := by simpa using hcells
        obtain ⟨hash', new, hwalk, hlinked, hnew⟩ := ih hcells' (by simpa using hrounds)
        refine ⟨hash', c :: new, ?_, by simpa using hlinked, by simp [hk, hnew]⟩
        have hfind : findKey H.key k ((c :: rest).map Prod.snd) =
            findKey H.key k (rest.map Prod.snd) := by
          simp [findKey, hk]
        rw [hfind, ← hwalk]
        simp

variable {t : Table H}

theorem eraseP_eq_filter {chain : List V} (hnodup : (chain.map H.key).Nodup) (k : K) :
    (chain.eraseP fun v => H.key v = k) = chain.filter fun v => H.key v ≠ k := by
  induction chain with
  | nil => rfl
  | cons v chain ih =>
    rw [List.map_cons, List.nodup_cons] at hnodup
    by_cases hv : H.key v = k
    · have habsent : ∀ w ∈ chain, H.key w ≠ k := fun w hw hwk =>
        hnodup.1 (List.mem_map.mpr ⟨w, hw, hwk.trans hv.symm⟩)
      have hrest : chain.filter (fun w => H.key w ≠ k) = chain := by
        simpa [List.filter_eq_self] using habsent
      rw [List.eraseP_cons_of_pos (by simpa using hv), List.filter_cons_of_neg (by simpa using hv),
        hrest]
    · rw [List.eraseP_cons_of_neg (by simpa using hv), List.filter_cons_of_pos (by simpa using hv),
        ih hnodup.2]

theorem hashRemove_spec (h : Represents (H := H) hash t) (k : K) {rounds : ℕ}
    (hrounds : t.entries.length < rounds) :
    ∃ hash', hashRemove (H := H) hash rounds k = some (t.find k, hash') ∧
      Represents (H := H) hash' (t.remove k) := by
  obtain ⟨cells, hlinked, hvalues⟩ := h
  obtain ⟨hash', new, hwalk, hlinked', hnew⟩ := removeFrom_seg hlinked k
    (List.nil_append (cells (H.choose k))).symm (length_cells_lt hvalues _ hrounds)
  refine ⟨hash', ?_, _, hlinked', fun j => ?_⟩
  · rw [hvalues] at hwalk
    rw [hashRemove, (hlinked.chain _).head]
    exact hwalk
  · have hremoved : (t.remove k).chains j = (t.chains j).filter fun v => H.key v ≠ k := rfl
    rw [hremoved]
    by_cases hj : j = H.choose k
    · subst hj
      rw [Function.update_self, List.nil_append, hnew, ← eraseP_eq_filter (t.nodup _), ← hvalues,
        List.eraseP_map]
      rfl
    · rw [Function.update_of_ne hj, hvalues, eq_comm, List.filter_eq_self]
      intro v hv
      have hplaced := t.placed j v hv
      simp only [ne_eq, decide_not, Bool.not_eq_eq_eq_not, Bool.not_true, decide_eq_false_iff_not]
      exact fun hvk => hj (hvk ▸ hplaced.symm)

end Remove

section Iterate

/-- The iterator at the first element of `rest`, or else at the next chain. -/
def deliver (hash : Hashtable V H.size) (i : Fin H.size) (before rest : List (Ptr × V)) :
    Option (Iterator H.size) :=
  (rest.head?.map fun c => behind (H := H) i before c.1).or
    (nextChain (H := H) hash (after (H := H) (some i)))

omit [DecidableEq K] in
theorem getLast?_map_fst {before : List (Ptr × V)} (h : before ≠ []) :
    ∃ xs q, before = xs ++ [q] ∧ before.getLast?.map Prod.fst = some q.1 := by
  refine ⟨before.dropLast, before.getLast h, (List.dropLast_append_getLast h).symm, ?_⟩
  rw [List.getLast?_eq_some_getLast h, Option.map_some]

omit [DecidableEq K] in
/-- From an element that is still there. -/
theorem hashIterate_kept (h : Linked (H := H) hash cells) {i : Fin H.size}
    {before rest : List (Ptr × V)} {c : Ptr × V} (hcells : cells i = before ++ c :: rest) :
    hashIterate (H := H) hash (behind (H := H) i before c.1) =
      some (deliver hash i (before ++ [c]) rest) := by
  have hchain := h.chain i
  rw [hcells] at hchain
  have hc := hchain.next
  have hadvance : advance (H := H) hash (behind (H := H) i before c.1) =
      some (deliver hash i (before ++ [c]) rest) := by
    cases rest <;> simp [advance, behind, deliver, hc]
  rw [← hadvance]
  by_cases hbefore : before = []
  · subst hbefore
    have hslot : hash.table i = some c.1 := hchain.1
    simp [hashIterate, behind, hslot]
  · obtain ⟨xs, q, hxs, hlast⟩ := getLast?_map_fst hbefore
    have hq : hash.heap q.1 = some ⟨q.2, some c.1⟩ := by
      rw [hxs, List.append_assoc] at hchain
      exact hchain.next
    simp [hashIterate, behind, hbefore, hlast, hq]

omit [DecidableEq K] in
/-- From the place of an element that was removed. -/
theorem hashIterate_removed (h : Linked (H := H) hash cells) {i : Fin H.size}
    {before rest : List (Ptr × V)} {p : Ptr} (hcells : cells i = before ++ rest)
    (hp : p ∉ (cells i).map Prod.fst) :
    hashIterate (H := H) hash (behind (H := H) i before p) = some (deliver hash i before rest) := by
  have hchain := h.chain i
  rw [hcells] at hchain hp
  have hrest : rest.head?.map Prod.fst ≠ some p := by
    intro heq
    obtain ⟨c, hc, rfl⟩ := Option.map_eq_some_iff.mp heq
    refine hp (List.mem_map_of_mem (List.mem_append_right _ ?_))
    exact List.mem_of_mem_head? hc
  by_cases hbefore : before = []
  · subst hbefore
    have hslot : hash.table i = rest.head?.map Prod.fst := hchain.head
    cases rest with
    | nil => simp [hashIterate, behind, hslot, advance, deliver]
    | cons c rest =>
      have hcp : c.1 ≠ p := fun heq => hrest (heq ▸ rfl)
      simp [hashIterate, behind, hslot, deliver, hcp]
  · obtain ⟨xs, q, hxs, hlast⟩ := getLast?_map_fst hbefore
    have hq : hash.heap q.1 = some ⟨q.2, rest.head?.map Prod.fst⟩ := by
      rw [hxs, List.append_assoc] at hchain
      exact hchain.next
    cases rest with
    | nil => simp [hashIterate, behind, hbefore, hlast, hq, advance, deliver]
    | cons c rest =>
      have hcp : c.1 ≠ p := fun heq => hrest (heq ▸ rfl)
      simp [hashIterate, behind, hbefore, hlast, hq, advance, deliver, hcp]

omit [DecidableEq K] in
/-- The next chain is delivered from its first element. -/
theorem nextChain_cons (h : Linked (H := H) hash cells) {i : Fin H.size}
    {indices : List (Fin H.size)} (hafter : after (H := H) (some i) = indices) :
    nextChain (H := H) hash (i :: indices) = deliver hash i [] (cells i) := by
  have hslot := (h.chain i).head
  subst hafter
  cases hcells : cells i with
  | nil => simp [nextChain, deliver, hslot, hcells]
  | cons c chain => simp [nextChain, deliver, hslot, hcells, behind]

omit [DecidableEq K] in
theorem after_cons {i j : Fin H.size} {indices : List (Fin H.size)}
    (h : after (H := H) (some i) = j :: indices) :
    (j : ℕ) = i + 1 ∧ after (H := H) (some j) = indices := by
  have hlt : (i : ℕ) + 1 < (List.finRange H.size).length := by
    by_contra hge
    rw [after, List.drop_eq_nil_of_le (Nat.le_of_not_lt hge)] at h
    cases h
  rw [after, List.drop_eq_getElem_cons hlt] at h
  obtain ⟨hj, hindices⟩ := List.cons.inj h
  have hval : (j : ℕ) = i + 1 := by
    rw [← hj, List.getElem_finRange]
    rfl
  exact ⟨hval, by rw [after, hval, hindices]⟩

omit [DecidableEq K] in
theorem after_nil {i : Fin H.size} (h : after (H := H) (some i) = []) (j : Fin H.size) : ¬ i < j := by
  rw [after, List.drop_eq_nil_iff, List.length_finRange] at h
  rw [Fin.lt_def]
  omega

omit [DecidableEq K] in
theorem lt_of_mem_after {i j : Fin H.size} (h : j ∈ after (H := H) (some i)) : i < j := by
  obtain ⟨n, hn, hj⟩ := List.mem_iff_getElem.mp h
  have hval := congrArg Fin.val hj
  simp only [after, List.getElem_drop, List.getElem_finRange, Fin.cast_mk] at hval
  rw [Fin.lt_def]
  omega

end Iterate

section Purge
variable (stale : V → Bool)

def keep (c : Ptr × V) : Bool := !stale c.2

/-- What is left when the walk stands between `before` and `rest` of a chain. -/
def purged (i : Fin H.size) (before rest : List (Ptr × V)) (cells : Cells V H.size) :
    Cells V H.size :=
  Function.update (fun j => if i < j then (cells j).filter (keep stale) else cells j) i
    (before ++ rest.filter (keep stale))

omit [DecidableEq K] in
theorem purged_kept {i : Fin H.size} {before rest : List (Ptr × V)} {c : Ptr × V}
    (h : ¬ stale c.2) : purged stale i (before ++ [c]) rest cells =
      purged stale i before (c :: rest) cells := by
  rw [purged, purged, List.filter_cons_of_pos (by simpa [keep] using h), List.append_assoc,
    List.singleton_append]

omit [DecidableEq K] in
theorem purged_removed {i : Fin H.size} {before rest new : List (Ptr × V)} {c : Ptr × V}
    (h : stale c.2) : purged stale i before rest (Function.update cells i new) =
      purged stale i before (c :: rest) cells := by
  rw [purged, purged, List.filter_cons_of_neg (by simpa [keep] using h)]
  funext j
  by_cases hj : j = i
  · subst hj
    rw [Function.update_self, Function.update_self]
  · rw [Function.update_of_ne hj, Function.update_of_ne hj, Function.update_of_ne hj]

omit [DecidableEq K] in
theorem purged_next {i j : Fin H.size} {before : List (Ptr × V)} (hcells : cells i = before)
    (hj : (j : ℕ) = i + 1) : purged stale j [] (cells j) cells = purged stale i before [] cells := by
  funext k
  by_cases hkj : k = j
  · subst hkj
    have hne : k ≠ i := by
      rintro rfl
      omega
    have hlt : i < k := Fin.lt_def.mpr (by omega)
    rw [purged, purged, Function.update_self, Function.update_of_ne hne, if_pos hlt, List.nil_append]
  · rw [purged, purged, Function.update_of_ne hkj]
    by_cases hki : k = i
    · subst hki
      have hlt : ¬ j < k := by
        rw [Fin.lt_def]
        omega
      rw [Function.update_self, if_neg hlt, hcells, List.filter_nil, List.append_nil]
    · have hiff : j < k ↔ i < k := by
        have hkj' : (k : ℕ) ≠ j := fun heq => hkj (Fin.ext heq)
        have hki' : (k : ℕ) ≠ i := fun heq => hki (Fin.ext heq)
        rw [Fin.lt_def, Fin.lt_def]
        omega
      rw [Function.update_of_ne hki]
      simp only [hiff]

omit [DecidableEq K] in
/-- One round of the loop: its element stays or is removed, and the walk goes on behind it. -/
theorem purge_round {it : Iterator H.size} {i : Fin H.size} {before rest : List (Ptr × V)}
    {c : Ptr × V} (h : Linked (H := H) hash cells) (hcells : cells i = before ++ c :: rest)
    (hit : hashIterate (H := H) hash it = some (deliver hash i before (c :: rest))) :
    ∃ hash' cells' before', (∀ rounds, purge (H := H) stale (rounds + 1) hash it =
        (purge (H := H) stale rounds hash' (behind (H := H) i before c.1)).map
          fun out => (c.2 :: out.1, out.2)) ∧
      Linked (H := H) hash' cells' ∧ cells' i = before' ++ rest ∧ (∀ j, j ≠ i → cells' j = cells j) ∧
      hashIterate (H := H) hash' (behind (H := H) i before c.1) = some (deliver hash' i before' rest) ∧
      purged stale i before' rest cells' = purged stale i before (c :: rest) cells := by
  have hchain := h.chain i
  rw [hcells] at hchain
  have hc := hchain.next
  have hdeliver : deliver hash i before (c :: rest) = some (behind (H := H) i before c.1) := rfl
  rw [hdeliver] at hit
  by_cases hstale : stale c.2
  · obtain ⟨hash', hremove, hlinked, hgone⟩ := removeBucket_spec h hcells
    have hself : Function.update cells i (before ++ rest) i = before ++ rest :=
      Function.update_self ..
    refine ⟨hash', _, before, fun rounds => ?_, hlinked, hself,
      fun j hj => Function.update_of_ne hj _ _, hashIterate_removed hlinked hself (hgone i),
      purged_removed stale hstale⟩
    rw [purge, hit]
    simp only [Option.bind_eq_bind, Option.bind_some, hc, hstale, if_true, hremove, Option.map_some,
      show (behind (H := H) i before c.1).bucket = some c.1 from rfl]
    cases purge (H := H) stale rounds hash' (behind (H := H) i before c.1) <;> rfl
  · have hcells' : cells i = (before ++ [c]) ++ rest := by simpa using hcells
    refine ⟨hash, cells, before ++ [c], fun rounds => ?_, h, hcells', fun _ _ => rfl,
      hashIterate_kept h hcells, purged_kept stale hstale⟩
    rw [purge, hit]
    simp only [Option.bind_eq_bind, Option.bind_some, hc, if_neg hstale,
      show (behind (H := H) i before c.1).bucket = some c.1 from rfl]
    cases purge (H := H) stale rounds hash (behind (H := H) i before c.1) <;> rfl

omit [DecidableEq K] in
/-- The walk from any place on meets each element once, whatever it removes. -/
theorem purge_from {rounds : ℕ} {it : Iterator H.size} {i : Fin H.size}
    {before rest : List (Ptr × V)} {indices : List (Fin H.size)} (h : Linked (H := H) hash cells)
    (hafter : after (H := H) (some i) = indices) (hcells : cells i = before ++ rest)
    (hit : hashIterate (H := H) hash it = some (deliver hash i before rest))
    (hrounds : (rest ++ indices.flatMap cells).length < rounds) :
    ∃ hash', purge (H := H) stale rounds hash it =
        some ((rest ++ indices.flatMap cells).map Prod.snd, hash') ∧
      Linked (H := H) hash' (purged stale i before rest cells) := by
  induction rounds generalizing hash cells it i before rest indices with
  | zero => cases hrounds
  | succ rounds ih =>
    have element : ∀ {i : Fin H.size} {before rest : List (Ptr × V)} {c : Ptr × V}
        {indices : List (Fin H.size)}, after (H := H) (some i) = indices →
        cells i = before ++ c :: rest →
        hashIterate (H := H) hash it = some (deliver hash i before (c :: rest)) →
        (c :: rest ++ indices.flatMap cells).length < rounds + 1 →
        ∃ hash', purge (H := H) stale (rounds + 1) hash it =
            some ((c :: rest ++ indices.flatMap cells).map Prod.snd, hash') ∧
          Linked (H := H) hash' (purged stale i before (c :: rest) cells) := by
      intro i before rest c indices hafter hcells hit hrounds
      obtain ⟨hash₁, cells₁, before₁, hround, hlinked, hcells₁, hother, hit₁, hpurged⟩ :=
        purge_round stale h hcells hit
      have hflat : indices.flatMap cells₁ = indices.flatMap cells := by
        rw [List.flatMap_def, List.flatMap_def, List.map_congr_left]
        intro j hj
        exact hother j (lt_of_mem_after (hafter ▸ hj)).ne'
      obtain ⟨hash', hpurge, hlinked'⟩ := ih hlinked hafter hcells₁ hit₁ (by
        rw [hflat]
        simpa using hrounds)
      refine ⟨hash', ?_, hpurged ▸ hlinked'⟩
      rw [hround, hpurge, hflat]
      rfl
    -- An empty rest is followed by the next chain in the same round.
    induction indices generalizing i before rest with
    | nil =>
      cases rest with
      | nil =>
        have hend : deliver hash i before [] = none := by
          rw [deliver, hafter]
          rfl
        refine ⟨hash, ?_, ?_⟩
        · rw [purge, hit, hend]
          rfl
        · have hall : purged stale i before [] cells = cells := by
            funext j
            by_cases hj : j = i
            · subst hj
              rw [purged, Function.update_self, hcells]
              rfl
            · rw [purged, Function.update_of_ne hj, if_neg (after_nil hafter j)]
          rwa [hall]
      | cons c rest => exact element hafter hcells hit hrounds
    | cons j indices ihchain =>
      cases rest with
      | nil =>
        obtain ⟨hj, hafter'⟩ := after_cons hafter
        have hnext : deliver hash i before [] = deliver hash j [] (cells j) := by
          rw [← nextChain_cons h hafter', ← hafter]
          rfl
        rw [hnext] at hit
        obtain ⟨hash', hpurge, hlinked⟩ := ihchain hafter' (List.nil_append _).symm hit
          (by simpa using hrounds)
        refine ⟨hash', by simpa using hpurge, ?_⟩
        rwa [← purged_next stale (by simpa using hcells) hj]
      | cons c rest => exact element hafter hcells hit hrounds

variable {t : Table H}

omit [DecidableEq K] in
/-- A loop that removes while it iterates sees every value once and leaves exactly those that are
not stale. -/
theorem purge_spec (h : Represents (H := H) hash t) {rounds : ℕ}
    (hrounds : t.entries.length < rounds) :
    ∃ hash', purge (H := H) stale rounds hash (start H.size) = some (t.entries, hash') ∧
      Represents (H := H) hash' (t.filter fun v => !stale v) := by
  obtain ⟨cells, hlinked, hvalues⟩ := h
  have hentries : t.entries = ((List.finRange H.size).flatMap cells).map Prod.snd := by
    rw [Table.entries, List.map_flatMap]
    exact congrArg (List.finRange H.size).flatMap (funext hvalues).symm
  have hfirst : hashIterate (H := H) hash (start H.size) =
      some (nextChain (H := H) hash (List.finRange H.size)) := rfl
  have hempty : ∀ i : Fin H.size, List.finRange H.size ≠ [] := fun i hnil =>
    List.not_mem_nil (hnil ▸ List.mem_finRange i)
  cases hindices : List.finRange H.size with
  | nil =>
    rw [hindices] at hentries hfirst
    obtain ⟨n, rfl⟩ := Nat.exists_eq_add_of_lt hrounds
    refine ⟨hash, ?_, cells, hlinked, fun i => absurd hindices (hempty i)⟩
    rw [purge, hfirst, hentries]
    rfl
  | cons j indices =>
    rw [hindices] at hentries hfirst
    have hj : (j : ℕ) = 0 := by
      have hlt : 0 < (List.finRange H.size).length := by simp [hindices]
      have hget : (List.finRange H.size)[0] = j := by simp [hindices]
      rw [← hget, List.getElem_finRange]
      rfl
    have hafter : after (H := H) (some j) = indices := by
      rw [after, hj, hindices]
      rfl
    rw [nextChain_cons hlinked hafter] at hfirst
    have hrounds' : (cells j ++ indices.flatMap cells).length < rounds := by
      simpa [hentries] using hrounds
    obtain ⟨hash', hpurge, hlinked'⟩ := purge_from stale hlinked hafter (List.nil_append _).symm
      hfirst hrounds'
    refine ⟨hash', by rw [hpurge, hentries]; rfl, _, hlinked', fun i => ?_⟩
    have hfilter : ((cells i).filter (keep stale)).map Prod.snd =
        (t.chains i).filter fun v => !stale v := by
      rw [← hvalues, List.filter_map]
      rfl
    by_cases hi : i = j
    · subst hi
      rw [purged, Function.update_self]
      exact hfilter
    · have hlt : j < i := by
        have hne : (i : ℕ) ≠ j := fun heq => hi (Fin.ext heq)
        rw [Fin.lt_def]
        omega
      rw [purged, Function.update_of_ne hi, if_pos hlt]
      exact hfilter

end Purge

end Represented

section Runs

inductive Request (K V : Type)
  | find (k : K)
  | add (v : V)
  | remove (k : K)
  | purge (stale : V → Bool)

inductive Answer (V : Type)
  | value (v : Option V)
  | added (success : Bool)
  | values (vs : List V)

variable (H) in
/-- What a finite map answers, and the map after it. -/
def MapStep (m : K → Option V) : Request K V → Answer V → (K → Option V) → Prop
  | .find k, .value v, m' => v = m k ∧ m' = m
  | .add v, .added success, m' => success = (m (H.key v)).isNone ∧
      m' = if success then Function.update m (H.key v) (some v) else m
  | .remove k, .value v, m' => v = m k ∧ m' = Function.update m k none
  | .purge stale, .values vs, m' => (vs.map H.key).Nodup ∧ (∀ v, v ∈ vs ↔ m (H.key v) = some v) ∧
      m' = fun k => (m k).filter fun v => !stale v
  | _, _, _ => False

variable (H) in
def MapRun (m : K → Option V) : List (Request K V) → List (Answer V) → (K → Option V) → Prop
  | [], answers, m' => answers = [] ∧ m' = m
  | r :: requests, answers, m' => ∃ a rest next, answers = a :: rest ∧ MapStep H m r a next ∧
      MapRun next requests rest m'

section Concrete
variable (malloc : Heap V → Ptr) (rounds : ℕ)

def serve (hash : Hashtable V H.size) : Request K V → Option (Answer V × Hashtable V H.size)
  | .find k => do
    let v ← hashFind (H := H) hash rounds k
    some (.value v, hash)
  | .add v => do
    let added ← hashAdd (H := H) hash rounds v (malloc hash.heap)
    some (.added added.isSome, added.getD hash)
  | .remove k => do
    let (v, hash) ← hashRemove (H := H) hash rounds k
    some (.value v, hash)
  | .purge stale => do
    let (vs, hash) ← purge (H := H) stale rounds hash (start H.size)
    some (.values vs, hash)

def serveAll (hash : Hashtable V H.size) :
    List (Request K V) → Option (List (Answer V) × Hashtable V H.size)
  | [] => some ([], hash)
  | r :: requests => do
    let (a, hash) ← serve (H := H) malloc rounds hash r
    let (answers, hash) ← serveAll hash requests
    some (a :: answers, hash)

end Concrete

variable {malloc : Heap V → Ptr} {rounds : ℕ} {hash : Hashtable V H.size} {t : Table H}

omit [DecidableEq K] in
/-- There is always room for one more element. -/
theorem Represents.exists_free (h : Represents (H := H) hash t) : ∃ p, hash.heap p = none := by
  obtain ⟨cells, hlinked, -⟩ := h
  have hfinite : {p | hash.heap p ≠ none}.Finite := by
    have hcells : (⋃ i, {p | p ∈ (cells i).map Prod.fst}).Finite :=
      Set.finite_iUnion fun i => List.finite_toSet _
    refine hcells.subset ?_
    intro p hp
    obtain ⟨i, hi⟩ := hlinked.only p hp
    exact Set.mem_iUnion.mpr ⟨i, hi⟩
  obtain ⟨p, hp⟩ := hfinite.exists_notMem
  exact ⟨p, not_not.mp hp⟩

/-- One request of the heap's table is one of the map. -/
theorem serve_spec (hmalloc : ∀ heap : Heap V, (∃ p, heap p = none) → heap (malloc heap) = none)
    (h : Represents (H := H) hash t) (hrounds : t.entries.length < rounds) (r : Request K V) :
    ∃ a hash' t', serve (H := H) malloc rounds hash r = some (a, hash') ∧
      Represents (H := H) hash' t' ∧ MapStep H t.find r a t'.find ∧
      t'.entries.length ≤ t.entries.length + 1 := by
  cases r with
  | find k =>
    refine ⟨.value (t.find k), hash, t, ?_, h, ⟨rfl, rfl⟩, Nat.le_succ _⟩
    rw [serve, hashFind_spec h k hrounds]
    rfl
  | add v =>
    cases hthere : t.find (H.key v) with
    | some w =>
      refine ⟨.added false, hash, t, ?_, h, by simp [MapStep, hthere], Nat.le_succ _⟩
      rw [serve, hashAdd_duplicate h hthere _ hrounds]
      rfl
    | none =>
      obtain ⟨hash', hadd, hrep⟩ := hashAdd_spec h hthere (hmalloc hash.heap h.exists_free) hrounds
      refine ⟨.added true, hash', t.put v, ?_, hrep, ?_, (t.length_entries_put hthere).le⟩
      · rw [serve, hadd]
        rfl
      · simp [MapStep, hthere, Table.find_put_eq_update]
  | remove k =>
    obtain ⟨hash', hremove, hrep⟩ := hashRemove_spec h k hrounds
    refine ⟨.value (t.find k), hash', t.remove k, ?_, hrep, ⟨rfl, t.find_remove_eq_update k⟩, ?_⟩
    · rw [serve, hremove]
      rfl
    · rw [Table.remove, Table.entries_filter]
      exact (List.length_filter_le _ _).trans (Nat.le_succ _)
  | purge stale =>
    obtain ⟨hash', hpurge, hrep⟩ := purge_spec stale h hrounds
    refine ⟨.values t.entries, hash', t.filter fun v => !stale v, ?_, hrep,
      ⟨t.nodup_keys, fun _ => t.mem_entries, funext fun k => t.find_filter _ k⟩, ?_⟩
    · rw [serve, hpurge]
      rfl
    · rw [Table.entries_filter]
      exact (List.length_filter_le _ _).trans (Nat.le_succ _)

theorem serveAll_spec (hmalloc : ∀ heap : Heap V, (∃ p, heap p = none) → heap (malloc heap) = none)
    (requests : List (Request K V)) (h : Represents (H := H) hash t)
    (hrounds : t.entries.length + requests.length < rounds) :
    ∃ answers hash' t', serveAll (H := H) malloc rounds hash requests = some (answers, hash') ∧
      Represents (H := H) hash' t' ∧ MapRun H t.find requests answers t'.find ∧
      t'.entries.length < rounds := by
  induction requests generalizing hash t with
  | nil => exact ⟨[], hash, t, rfl, h, ⟨rfl, rfl⟩, hrounds⟩
  | cons r requests ih =>
    rw [List.length_cons] at hrounds
    have hroom : t.entries.length < rounds := by omega
    obtain ⟨a, hash₁, t₁, hserve, hrep, hstep, hlength⟩ := serve_spec hmalloc h hroom r
    have hrounds₁ : t₁.entries.length + requests.length < rounds := by omega
    obtain ⟨answers, hash', t', hall, hrep', hrun, hroom⟩ := ih hrep hrounds₁
    refine ⟨a :: answers, hash', t', ?_, hrep', ⟨a, answers, _, rfl, hstep, hrun⟩, hroom⟩
    rw [serveAll, hserve]
    simp only [Option.bind_eq_bind, Option.bind_some, hall]

/-- Every run from a new table answers as a finite map does, and no loop of it uses an element that
is freed. -/
theorem serveAll_refines_map (hmalloc : ∀ heap : Heap V, (∃ p, heap p = none) → heap (malloc heap) = none)
    (requests : List (Request K V)) (hrounds : requests.length < rounds) :
    ∃ answers hash' m, serveAll (H := H) malloc rounds (hashNew H) requests = some (answers, hash') ∧
      MapRun H (fun _ => none) requests answers m ∧
      ∀ k, hashFind (H := H) hash' rounds k = some (m k) := by
  have hempty : (Table.empty : Table H).entries.length + requests.length < rounds := by
    simpa [Table.entries, Table.empty] using hrounds
  obtain ⟨answers, hash', t', hall, hrep, hrun, hroom⟩ := serveAll_spec hmalloc requests
    represents_hashNew hempty
  exact ⟨answers, hash', t'.find, hall, hrun, fun k => hashFind_spec hrep k hroom⟩

open Classical in
theorem serveAll_refines_map_small : ∃ malloc answers hash' m,
    serveAll (H := ⟨Prod.fst, 2, fun k => ⟨k % 2, Nat.mod_lt k Nat.two_pos⟩⟩) malloc 6 (hashNew _)
      [.add (1, 5), .add (3, 6), .add (1, 7), .purge fun v : ℕ × ℕ => v.2 = 5, .remove 3] =
        some (answers, hash') ∧
    MapRun ⟨Prod.fst, 2, fun k => ⟨k % 2, Nat.mod_lt k Nat.two_pos⟩⟩ (fun _ => none)
      [.add (1, 5), .add (3, 6), .add (1, 7), .purge fun v : ℕ × ℕ => v.2 = 5, .remove 3] answers m ∧
    ∀ k, hashFind (H := ⟨Prod.fst, 2, fun k => ⟨k % 2, Nat.mod_lt k Nat.two_pos⟩⟩) hash' 6 k =
      some (m k) :=
  ⟨fun heap => if h : ∃ p, heap p = none then h.choose else 0,
    serveAll_refines_map (fun heap h => by rw [dif_pos h]; exact h.choose_spec) _ (by decide)⟩

end Runs

end NexFi.AlfredHash
