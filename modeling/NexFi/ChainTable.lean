import Mathlib.Data.Fintype.Basic
import Mathlib.Data.List.Nodup
import Mathlib.Data.List.FinRange

/-!
# Hash tables with chains

A value stands in the chain that its key is hashed to, and no two values of a
table have the same key. So a table is a finite map from keys to values, together
with the order in which a walk over all chains meets the values.
-/

namespace NexFi.ChainTable

structure Hashing (K V : Type) where
  key : V → K
  size : ℕ
  choose : K → Fin size

variable {K V : Type} [DecidableEq K]

section Chains
variable (key : V → K)

def findKey (k : K) (chain : List V) : Option V := chain.find? fun v => key v = k

/-- The values that have the key are overwritten. -/
def replaceKey (v : V) (chain : List V) : List V :=
  chain.map fun w => if key w = key v then v else w

def putKey (v : V) (chain : List V) : List V :=
  if (findKey key (key v) chain).isSome then replaceKey key v chain else chain ++ [v]

variable {key} {chain : List V}

theorem findKey_key {k : K} {v : V} (h : findKey key k chain = some v) : key v = k := by
  simpa using List.find?_some h

theorem findKey_eq_none {k : K} : findKey key k chain = none ↔ ∀ v ∈ chain, key v ≠ k := by
  rw [findKey, List.find?_eq_none]
  simp

theorem findKey_of_mem (hnodup : (chain.map key).Nodup) {v : V} (h : v ∈ chain) :
    findKey key (key v) chain = some v := by
  cases hfind : findKey key (key v) chain with
  | none => exact absurd rfl (findKey_eq_none.mp hfind v h)
  | some w =>
    have hkey := findKey_key hfind
    have hw : w ∈ chain := List.mem_of_find?_eq_some hfind
    rw [List.inj_on_of_nodup_map hnodup hw h hkey]

theorem map_replaceKey (v : V) : (replaceKey key v chain).map key = chain.map key := by
  rw [replaceKey, List.map_map]
  refine List.map_congr_left fun w _ => ?_
  by_cases hw : key w = key v <;> simp [hw]

theorem findKey_replaceKey (v : V) (k : K) : findKey key k (replaceKey key v chain) =
    if key v = k then (findKey key k chain).map fun _ => v else findKey key k chain := by
  induction chain with
  | nil => simp [findKey, replaceKey]
  | cons w chain ih =>
    simp only [findKey, replaceKey, List.map_cons, List.find?_cons] at ih ⊢
    by_cases hw : key w = key v
    · rw [if_pos hw]
      by_cases hv : key v = k
      · simp [hv, hw]
      · have hwk : key w ≠ k := hw ▸ hv
        rw [ih, if_neg hv, if_neg hv]
        simp [hv, hwk]
    · rw [if_neg hw]
      by_cases hwk : key w = k
      · have hv : key v ≠ k := fun h => hw (hwk.trans h.symm)
        simp [hwk, hv]
      · simp only [hwk, decide_false]
        exact ih

theorem findKey_putKey (v : V) (k : K) : findKey key k (putKey key v chain) =
    if key v = k then some v else findKey key k chain := by
  unfold putKey
  split_ifs with hthere hv hv
  · rw [findKey_replaceKey, if_pos hv]
    subst hv
    obtain ⟨w, hw⟩ := Option.isSome_iff_exists.mp hthere
    rw [hw, Option.map_some]
  · rw [findKey_replaceKey, if_neg hv]
  · subst hv
    have hnone := Option.not_isSome_iff_eq_none.mp hthere
    simp only [findKey, List.find?_append] at hnone ⊢
    simp [hnone]
  · simp [findKey, List.find?_append, hv]

theorem mem_putKey {v w : V} (h : w ∈ putKey key v chain) : w = v ∨ w ∈ chain := by
  unfold putKey at h
  split_ifs at h
  · obtain ⟨u, hu, rfl⟩ := List.mem_map.mp h
    split_ifs
    · exact Or.inl rfl
    · exact Or.inr hu
  · simpa [or_comm] using h

theorem nodup_putKey (hnodup : (chain.map key).Nodup) (v : V) :
    ((putKey key v chain).map key).Nodup := by
  unfold putKey
  split_ifs with hthere
  · rwa [map_replaceKey]
  · have habsent := findKey_eq_none.mp (Option.not_isSome_iff_eq_none.mp hthere)
    rw [List.map_append, List.map_cons, List.map_nil]
    refine List.Nodup.append hnodup (List.nodup_singleton _) ?_
    rw [List.disjoint_singleton]
    intro hmem
    obtain ⟨w, hw, hkey⟩ := List.mem_map.mp hmem
    exact habsent w hw hkey

theorem findKey_filter (hnodup : (chain.map key).Nodup) (keep : V → Bool) (k : K) :
    findKey key k (chain.filter keep) = (findKey key k chain).filter keep := by
  induction chain with
  | nil => rfl
  | cons w chain ih =>
    rw [List.map_cons, List.nodup_cons] at hnodup
    have hrest := ih hnodup.2
    simp only [findKey] at hrest ⊢
    by_cases hwk : key w = k
    · have habsent : ∀ v ∈ chain, key v ≠ k := by
        intro v hv hvk
        exact hnodup.1 (List.mem_map.mpr ⟨v, hv, hvk.trans hwk.symm⟩)
      have hnone : chain.find? (fun v => key v = k) = none := findKey_eq_none.mpr habsent
      by_cases hkeep : keep w
      · simp [List.filter_cons_of_pos hkeep, hwk, Option.filter, hkeep]
      · rw [List.filter_cons_of_neg hkeep, hrest, hnone]
        simp [hwk, Option.filter, hkeep]
    · by_cases hkeep : keep w
      · rw [List.filter_cons_of_pos hkeep]
        simp [hwk, hrest]
      · rw [List.filter_cons_of_neg hkeep, hrest]
        simp [hwk]

end Chains

structure Table (H : Hashing K V) where
  chains : Fin H.size → List V
  placed : ∀ i, ∀ v ∈ chains i, H.choose (H.key v) = i
  nodup : ∀ i, ((chains i).map H.key).Nodup

namespace Table
variable {H : Hashing K V}

def empty : Table H := ⟨fun _ => [], fun _ _ h => absurd h List.not_mem_nil, fun _ => List.nodup_nil⟩

def find (t : Table H) (k : K) : Option V := findKey H.key k (t.chains (H.choose k))

/-- The values in the order of a walk over all chains. -/
def entries (t : Table H) : List V := (List.finRange H.size).flatMap t.chains

/-- Over the value of the same key if there is one, else at the end of its chain. -/
def put (t : Table H) (v : V) : Table H where
  chains := Function.update t.chains (H.choose (H.key v))
    (putKey H.key v (t.chains (H.choose (H.key v))))
  placed := by
    intro i w hw
    by_cases hi : i = H.choose (H.key v)
    · subst hi
      rw [Function.update_self] at hw
      rcases mem_putKey hw with rfl | hw
      · rfl
      · exact t.placed _ w hw
    · rw [Function.update_of_ne hi] at hw
      exact t.placed i w hw
  nodup := by
    intro i
    by_cases hi : i = H.choose (H.key v)
    · subst hi
      rw [Function.update_self]
      exact nodup_putKey (t.nodup _) v
    · rw [Function.update_of_ne hi]
      exact t.nodup i

def filter (t : Table H) (keep : V → Bool) : Table H where
  chains := fun i => (t.chains i).filter keep
  placed := fun i v hv => t.placed i v (List.mem_of_mem_filter hv)
  nodup := fun i => (List.filter_sublist.map H.key).nodup (t.nodup i)

def remove (t : Table H) (k : K) : Table H := t.filter fun v => H.key v ≠ k

variable (t : Table H)

@[simp] theorem find_empty (k : K) : (empty : Table H).find k = none := rfl

theorem find_key {k : K} {v : V} (h : t.find k = some v) : H.key v = k := findKey_key h

theorem find_put (v : V) (k : K) :
    (t.put v).find k = if H.key v = k then some v else t.find k := by
  by_cases hchain : H.choose k = H.choose (H.key v)
  · simp only [find, put, hchain, Function.update_self, findKey_putKey]
  · have hk : H.key v ≠ k := fun h => hchain (congrArg H.choose h.symm)
    simp only [find, put, Function.update_of_ne hchain, if_neg hk]

@[simp] theorem find_put_self (v : V) : (t.put v).find (H.key v) = some v := by
  rw [find_put, if_pos rfl]

theorem find_put_ne {v : V} {k : K} (h : H.key v ≠ k) : (t.put v).find k = t.find k := by
  rw [find_put, if_neg h]

theorem find_filter (keep : V → Bool) (k : K) : (t.filter keep).find k = (t.find k).filter keep :=
  findKey_filter (t.nodup _) keep k

theorem find_remove (k k' : K) : (t.remove k).find k' = if k' = k then none else t.find k' := by
  rw [remove, find_filter]
  cases hfind : t.find k' with
  | none => simp
  | some v =>
    have hkey := t.find_key hfind
    by_cases hk : k' = k <;> simp [hkey, hk]

@[simp] theorem find_remove_self (k : K) : (t.remove k).find k = none := by
  rw [find_remove, if_pos rfl]

theorem mem_entries {v : V} : v ∈ t.entries ↔ t.find (H.key v) = some v := by
  rw [entries, List.mem_flatMap]
  constructor
  · rintro ⟨i, -, hv⟩
    have hi := t.placed i v hv
    rw [find, hi]
    exact findKey_of_mem (t.nodup i) hv
  · intro h
    exact ⟨_, List.mem_finRange _, List.mem_of_find?_eq_some h⟩

omit [DecidableEq K] in
theorem nodup_keys : (t.entries.map H.key).Nodup := by
  rw [entries, List.map_flatMap, List.nodup_flatMap]
  refine ⟨fun i _ => t.nodup i, ?_⟩
  refine (List.nodup_finRange _).imp fun {i j} hij => ?_
  intro k hi hj
  obtain ⟨v, hv, rfl⟩ := List.mem_map.mp hi
  obtain ⟨w, hw, hkey⟩ := List.mem_map.mp hj
  rw [← t.placed i v hv, ← t.placed j w hw, hkey] at hij
  exact hij rfl

omit [DecidableEq K] in
theorem entries_filter (keep : V → Bool) : (t.filter keep).entries = t.entries.filter keep := by
  rw [entries, entries, List.filter_flatMap]
  rfl

omit [DecidableEq K] in
theorem length_chain_le (i : Fin H.size) : (t.chains i).length ≤ t.entries.length := by
  rw [entries, List.flatMap_def]
  have hmem : t.chains i ∈ (List.finRange H.size).map t.chains :=
    List.mem_map_of_mem (List.mem_finRange i)
  exact (List.sublist_flatten_of_mem hmem).length_le

theorem chains_put {v : V} (hnone : t.find (H.key v) = none) :
    (t.put v).chains = Function.update t.chains (H.choose (H.key v))
      (t.chains (H.choose (H.key v)) ++ [v]) := by
  have hput : putKey H.key v (t.chains (H.choose (H.key v))) =
      t.chains (H.choose (H.key v)) ++ [v] := by
    have habsent : findKey H.key (H.key v) (t.chains (H.choose (H.key v))) = none := hnone
    rw [putKey, habsent]
    rfl
  exact congrArg (Function.update t.chains _) hput

omit [DecidableEq K] in
theorem nodup_entries : t.entries.Nodup := t.nodup_keys.of_map

/-- A new key is one more value of the walk. -/
theorem entries_put_perm {v : V} (h : t.find (H.key v) = none) :
    (t.put v).entries.Perm (v :: t.entries) := by
  have habsent : v ∉ t.entries := by
    rw [mem_entries, h]
    exact Option.some_ne_none v ∘ Eq.symm
  rw [List.perm_ext_iff_of_nodup (t.put v).nodup_entries (List.nodup_cons.mpr ⟨habsent, t.nodup_entries⟩)]
  intro w
  rw [mem_entries, find_put, List.mem_cons, mem_entries]
  by_cases hkey : H.key v = H.key w
  · rw [if_pos hkey, ← hkey, h, Option.some_inj, eq_comm]
    simp
  · have hne : w ≠ v := fun heq => hkey (heq ▸ rfl)
    rw [if_neg hkey]
    simp [hne]

/-- The values are what can be found, in some order. -/
theorem entries_perm_of_find {t t' : Table H} (h : t.find = t'.find) : t.entries.Perm t'.entries := by
  rw [List.perm_ext_iff_of_nodup t.nodup_entries t'.nodup_entries]
  intro v
  rw [mem_entries, mem_entries, h]

theorem find_put_eq_update (v : V) : (t.put v).find = Function.update t.find (H.key v) (some v) := by
  funext k
  rw [find_put, Function.update_apply]
  simp only [eq_comm]

theorem find_remove_eq_update (k : K) : (t.remove k).find = Function.update t.find k none := by
  funext k'
  rw [find_remove, Function.update_apply]

theorem entries_perm_of_update_none {t t' : Table H} {k : K}
    (h : t'.find = Function.update t.find k none) : t'.entries.Perm (t.remove k).entries :=
  entries_perm_of_find (by rw [h, find_remove_eq_update])

theorem entries_perm_of_update_some {t t' : Table H} {v : V}
    (h : t'.find = Function.update t.find (H.key v) (some v)) :
    t'.entries.Perm (v :: (t.remove (H.key v)).entries) := by
  have hput : t'.find = ((t.remove (H.key v)).put v).find := by
    rw [h, find_put_eq_update, find_remove_eq_update, Function.update_idem]
  exact (entries_perm_of_find hput).trans (entries_put_perm _ (find_remove_self t _))

theorem entries_perm_of_find_some {k : K} {v : V} (h : t.find k = some v) :
    t.entries.Perm (v :: (t.remove k).entries) := by
  obtain rfl := t.find_key h
  refine entries_perm_of_update_some ?_
  rw [← h, Function.update_eq_self]

theorem length_entries_put {v : V} (h : t.find (H.key v) = none) :
    (t.put v).entries.length = t.entries.length + 1 :=
  (t.entries_put_perm h).length_eq

end Table

end NexFi.ChainTable
