import NexFi.StoreHandlers

/-!
# One request handled alone

A request opens the database, so what it does is a function of the directory
and of its failing calls. `Healthy` says that the document's file is absent or
decodes; the saving branch of the other case, a file that is there and does not
decode, leaves everything as it was.
-/

namespace NexFi.StoreHandlers
open Posix Prog StoreDB GoJson

variable {V : Type} (ep : Endpoint V) (φ : Faults) (fs : Fs FileName)

namespace Endpoint

/-- The document on the disk, if there is one that decodes. -/
def current : Option V := stored fs ep.gob ep.key

def Healthy : Prop := fs.entry ep.key = none ∨ (ep.current fs).isSome

/-- A file that `Init` skips and `Put` refuses to touch. -/
def Stuck : Prop := (fs.entry ep.key).isSome ∧ ep.current fs = none

theorem healthy_or_stuck : ep.Healthy fs ∨ ep.Stuck fs := by
  cases he : fs.entry ep.key with
  | none => exact Or.inl (Or.inl he)
  | some e =>
    cases hc : ep.current fs with
    | none => exact Or.inr ⟨by simp [he], hc⟩
    | some v => exact Or.inl (Or.inr (by simp [hc]))

theorem current_of_absent {fs : Fs FileName} (h : fs.entry ep.key = none) : ep.current fs = none :=
  stored_of_not_file fs ep.gob (by simp [h])

theorem file_of_current {fs : Fs FileName} {v : V} (h : ep.current fs = some v) :
    ∃ i, fs.entry ep.key = some (.file i) := by
  by_contra hno
  rw [current, stored_of_not_file fs ep.gob hno] at h
  cases h

theorem dir_of_entry {fs : Fs FileName} {k : FileName} {e : Entry} (h : fs.entry k = some e) :
    ∃ d, fs.dir = some d := by
  cases hd : fs.dir with
  | none => simp [Fs.entry_of_missing hd] at h
  | some d => exact ⟨d, rfl⟩

/-- The directory as the open database sees it. -/
def opened : Fs FileName := if fs.dir = none ∧ φ.mkdir = true then fs else fs.mkdirAll

theorem entry_opened (k : FileName) : (opened φ fs).entry k = fs.entry k := by
  unfold opened
  split_ifs
  · rfl
  · exact Fs.entry_mkdirAll fs k

theorem opened_of_dir {d : Dir FileName} (hd : fs.dir = some d) : opened φ fs = fs := by
  rw [opened, if_neg (by simp [hd]), Fs.mkdirAll_of_some (by simp [hd])]

theorem opened_clear : opened Faults.clear fs = fs.mkdirAll := if_neg (by simp [Faults.clear])

theorem dir_opened (h : fs.dir = none → φ.mkdir = false) : ∃ d, (opened φ fs).dir = some d := by
  have hneg : ¬ (fs.dir = none ∧ φ.mkdir = true) := by
    rintro ⟨hd, hm⟩
    rw [h hd] at hm
    cases hm
  rw [opened, if_neg hneg]
  exact Option.isSome_iff_exists.mp (Fs.dir_isSome_mkdirAll fs)

theorem run_getDatabase (name : String) :
    ∃ db, run (faulty φ) (getDatabase ep.gob name) fs = (db, opened φ fs) ∧
      ∀ k, db.objectsMap.lookup k = if φ.openDir = false then stored fs ep.gob k else none := by
  by_cases h : φ.Lists fs
  · have hrun := run_init_listed φ fs ep.gob h (newDB name)
    have hneg : ¬ (fs.dir = none ∧ φ.mkdir = true) := by
      rintro ⟨hd, hm⟩
      rw [h.1 hd] at hm
      cases hm
    refine ⟨{ (newDB name : DB V) with objectsMap := filled fs ep.gob (newDB name : DB V).objectsMap },
      by simp [getDatabase, run_bind, hrun, opened, hneg], fun k => ?_⟩
    rw [if_pos h.2]
    simp [lookup_filled, newDB]
  · obtain ⟨e, hrun⟩ := run_init_failed φ fs ep.gob h (newDB name)
    refine ⟨newDB name, by simp [getDatabase, run_bind, hrun, opened], fun k => ?_⟩
    split_ifs with ho
    · have hd : fs.dir = none := by
        by_contra hd
        exact h ⟨fun hd' => absurd hd' hd, ho⟩
      rw [stored_of_not_file fs ep.gob (by simp [Fs.entry_of_missing hd])]
      rfl
    · rfl

theorem run_load {r : Request} (hr : ep.saves r.method = false) :
    run perform (ep.handler r) fs = (.document ((ep.current fs).getD ep.zero), fs.mkdirAll) := by
  obtain ⟨db, hrun, hlookup⟩ := ep.run_getDatabase Faults.clear fs ep.database
  rw [faulty_clear, opened_clear] at hrun
  have hget : db.objectsMap.lookup ep.key = ep.current fs := hlookup ep.key
  simp [handler, run_bind, hrun, hr, load, StoreDB.get, hget]

/-- The calls a save of `v` depends on all succeed. -/
def Through (v : V) : Prop :=
  (fs.dir = none → φ.mkdir = false) ∧
  ((ep.current fs).isSome → φ.openDir = false ∧ φ.remove = false) ∧
  φ.create = false ∧ φ.Writes 0 (ep.gob.messages v)

/-- The document left when the save does not get through: the old one when it
could not be found or removed, none otherwise. -/
def left : Option V := if φ.openDir = true ∨ φ.remove = true then ep.current fs else none

theorem through_clear (v : V) : ep.Through Faults.clear fs v :=
  ⟨fun _ => rfl, fun _ => ⟨rfl, rfl⟩, rfl, fun _ _ => rfl⟩

theorem run_put_fresh (db : DB V) (v : V) (he : fs.entry ep.key = none) :
    ∃ res gs, run (faulty φ) (put ep.gob db ep.key v) fs = (res, gs) ∧
      (fs.dir ≠ none ∧ φ.create = false ∧ φ.Writes 0 (ep.gob.messages v) →
        ep.current gs = some (ep.gob.canon v)) ∧
      (¬ (fs.dir ≠ none ∧ φ.create = false ∧ φ.Writes 0 (ep.gob.messages v)) →
        ep.current gs = none) := by
  cases hd : fs.dir with
  | none =>
    obtain ⟨e, hrun⟩ := run_put_uncreated φ fs ep.gob db v he (Or.inl hd)
    exact ⟨_, fs, hrun, fun h => absurd rfl h.1, fun _ => ep.current_of_absent he⟩
  | some d =>
    cases hc : φ.create with
    | true =>
      obtain ⟨e, hrun⟩ := run_put_uncreated φ fs ep.gob db v he (Or.inr hc)
      exact ⟨_, fs, hrun, fun h => (by cases h.2.1), fun _ => ep.current_of_absent he⟩
    | false =>
      by_cases hw : φ.Writes 0 (ep.gob.messages v)
      · refine ⟨_, _, run_put_done φ fs ep.gob db v he hd hc hw, fun _ => ?_, fun h => ?_⟩
        · rw [current, stored_withFile, if_pos rfl, ep.gob.decode_stream]
        · exact absurd ⟨by simp, rfl, hw⟩ h
      · obtain ⟨done, b, todo, n, hsplit, hrun⟩ := run_put_failed φ fs ep.gob db v he hd hc hw
        refine ⟨_, _, hrun, fun h => absurd h.2.2 hw, fun _ => ?_⟩
        rw [current, stored_withFile, if_pos rfl, ep.gob.decode_partial hsplit]

def Saved (v : V) (gs : Fs FileName) : Prop :=
  (ep.Through φ fs v → ep.current gs = some (ep.gob.canon v)) ∧
  (¬ ep.Through φ fs v → ep.current gs = ep.left φ fs)

theorem dir_opened_iff : (opened φ fs).dir ≠ none ↔ (fs.dir = none → φ.mkdir = false) := by
  constructor
  · intro hne hd
    by_contra hm
    exact hne (by rw [opened, if_pos ⟨hd, by simpa using hm⟩, hd])
  · intro hm
    obtain ⟨d, hd⟩ := dir_opened φ fs hm
    simp [hd]

/-- No file yet: nothing to delete, and the put decides. -/
theorem run_update_absent (he : fs.entry ep.key = none) {db : DB V}
    (hkey : db.objectsMap.lookup ep.key = none) (v : V) :
    ∃ res gs, run (faulty φ) (update ep.gob db ep.key v) (opened φ fs) = (res, gs) ∧
      ep.Saved φ fs v gs := by
  have hcur := ep.current_of_absent he
  have hdel := run_delete_absent φ (opened φ fs) db ep.key (Or.inl hkey)
  obtain ⟨res, gs, hput, hdone, hfail⟩ := ep.run_put_fresh φ (opened φ fs) db v
    (by rw [entry_opened, he])
  have hthrough : ep.Through φ fs v ↔
      (opened φ fs).dir ≠ none ∧ φ.create = false ∧ φ.Writes 0 (ep.gob.messages v) := by
    simp [Through, dir_opened_iff, hcur]
  refine ⟨res, gs, by simp [update, run_bind, hdel, hput], fun ht => hdone (hthrough.mp ht), ?_⟩
  intro ht
  rw [hfail (mt hthrough.mpr ht), left, hcur, ite_self]

theorem run_update_unlisted (ho : φ.openDir = true) {w : V} (hw : ep.current fs = some w) {i : ℕ}
    (hi : fs.entry ep.key = some (.file i)) {db : DB V} (hkey : db.objectsMap.lookup ep.key = none)
    (v : V) :
    ∃ res, run (faulty φ) (update ep.gob db ep.key v) fs = (res, fs) ∧ ep.Saved φ fs v fs := by
  have hdel := run_delete_absent φ fs db ep.key (Or.inl hkey)
  have hput := run_put_exists φ fs ep.gob db v hi
  refine ⟨_, by simp [update, run_bind, hdel, hput]; rfl, fun ht => ?_, fun _ => ?_⟩
  · have := (ht.2.1 (by simp [hw])).1
    simp [ho] at this
  · simp [left, ho]

theorem run_update_listed (ho : φ.openDir = false) {d : Dir FileName} (hd : fs.dir = some d) {w : V}
    (hw : ep.current fs = some w) {i : ℕ} (hi : fs.entry ep.key = some (.file i)) {db : DB V}
    (hkey : db.objectsMap.lookup ep.key = some w) (v : V) :
    ∃ res gs, run (faulty φ) (update ep.gob db ep.key v) fs = (res, gs) ∧ ep.Saved φ fs v gs := by
  cases hm : φ.remove with
  | true =>
    have hdel := run_delete_failed φ fs db hkey hi hm
    refine ⟨_, fs, by simp [update, run_bind, hdel]; rfl, fun ht => ?_, fun _ => ?_⟩
    · have := (ht.2.1 (by simp [hw])).2
      simp [hm] at this
    · simp [left, hm]
  | false =>
    have hdel := run_delete_file φ fs db hkey hi hm
    obtain ⟨res, gs, hput, hdone, hfail⟩ := ep.run_put_fresh φ (fs.unlink ep.key)
      { db with objectsMap := db.objectsMap.erase ep.key } v (by rw [Fs.entry_unlink, if_pos rfl])
    have hthrough : ep.Through φ fs v ↔
        (fs.unlink ep.key).dir ≠ none ∧ φ.create = false ∧ φ.Writes 0 (ep.gob.messages v) := by
      simp [Through, hd, ho, hm, Fs.unlink]
    refine ⟨res, gs, by simp [update, run_bind, hdel, hput], fun ht => hdone (hthrough.mp ht), ?_⟩
    intro ht
    rw [hfail (mt hthrough.mpr ht)]
    simp [left, ho, hm]

/-- A save on a healthy directory: it gets through, or leaves what `left` says.
The reply is the same. -/
theorem run_save {r : Request} (hr : ep.saves r.method = true) (h : ep.Healthy fs) :
    ∃ gs, run (faulty φ) (ep.handler r) fs = (.status "ok", gs) ∧
      ep.Saved φ fs (ep.decoded r.body).value gs := by
  obtain ⟨db, hopen, hlookup⟩ := ep.run_getDatabase φ fs ep.database
  suffices hupdate : ∃ res gs,
      run (faulty φ) (update ep.gob db ep.key (ep.decoded r.body).value) (opened φ fs) = (res, gs) ∧
        ep.Saved φ fs (ep.decoded r.body).value gs by
    obtain ⟨res, gs, hrun, hspec⟩ := hupdate
    exact ⟨gs, by simp [handler, run_bind, hopen, hr, save, hrun], hspec⟩
  cases he : fs.entry ep.key with
  | none =>
    refine ep.run_update_absent φ fs he ?_ _
    rw [hlookup]
    split_ifs
    · exact ep.current_of_absent he
    · rfl
  | some e =>
    obtain ⟨d, hd⟩ := dir_of_entry he
    obtain ⟨w, hw⟩ := Option.isSome_iff_exists.mp (h.resolve_left (by simp [he]))
    obtain ⟨i, hi⟩ := ep.file_of_current hw
    rw [opened_of_dir φ fs hd]
    cases ho : φ.openDir with
    | true =>
      have hkey : db.objectsMap.lookup ep.key = none := by simp [hlookup, ho]
      obtain ⟨res, hrun⟩ := ep.run_update_unlisted φ fs ho hw hi hkey _
      exact ⟨res, fs, hrun⟩
    | false =>
      have hkey : db.objectsMap.lookup ep.key = some w := by
        rw [hlookup, if_pos ho]
        exact hw
      exact ep.run_update_listed φ fs ho hd hw hi hkey _

theorem run_save_stuck {r : Request} (hr : ep.saves r.method = true) (h : ep.Stuck fs) :
    run perform (ep.handler r) fs = (.status "ok", fs) := by
  obtain ⟨hentry, hcur⟩ := h
  obtain ⟨e, he⟩ := Option.isSome_iff_exists.mp hentry
  obtain ⟨d, hd⟩ := dir_of_entry he
  obtain ⟨db, hopen, hlookup⟩ := ep.run_getDatabase Faults.clear fs ep.database
  rw [opened_of_dir Faults.clear fs hd] at hopen
  have hkey : db.objectsMap.lookup ep.key = none := by
    rw [hlookup]
    exact hcur
  have hdel := run_delete_absent Faults.clear fs db ep.key (Or.inl hkey)
  have hput := run_put_exists Faults.clear fs ep.gob db (ep.decoded r.body).value he
  rw [faulty_clear] at hopen hdel hput
  simp [handler, run_bind, hopen, hr, save, update, hdel, hput]

theorem run_save_clear {r : Request} (hr : ep.saves r.method = true) (h : ep.Healthy fs) :
    ∃ gs, run perform (ep.handler r) fs = (.status "ok", gs) ∧
      ep.current gs = some (ep.gob.canon (ep.decoded r.body).value) := by
  obtain ⟨gs, hrun, hdone, -⟩ := ep.run_save Faults.clear fs hr h
  rw [faulty_clear] at hrun
  exact ⟨gs, hrun, hdone (ep.through_clear fs _)⟩

theorem current_saved {r : Request} (hr : ep.saves r.method = true) (h : ep.Healthy fs) :
    ep.current (run perform (ep.handler r) fs).2 = some (ep.gob.canon (ep.decoded r.body).value) := by
  obtain ⟨gs, hrun, hcur⟩ := ep.run_save_clear fs hr h
  rw [hrun]
  exact hcur

end Endpoint
end NexFi.StoreHandlers
