import NexFi.StoreRefinement

/-!
# Failed write operations

Nothing in the database takes a step back. `Delete` and `Put` fail before they
touch the map, so map and loadable values stay; a `Put` whose `Encode` fails
leaves the torn file behind, and an `Update` whose `Put` fails has already
deleted.
-/

namespace NexFi.StoreDB
open Posix Prog

variable {V : Type} (G : Gob V)

def Undecodable (fs : Fs FileName) (k : FileName) : Prop :=
  (∃ i, fs.entry k = some (.file i)) ∧ stored fs G k = none

/-- `Put` creates the file of a new key and then a write of `Encode` fails. -/
def Torn (φ : Faults) (fs : Fs FileName) (key : FileName) (v : V) : Prop :=
  fs.entry key = none ∧ φ.create = false ∧ ¬ φ.Writes 0 (G.messages v)

def AsBefore (db db' : DB V) (fs gs : Fs FileName) : Prop :=
  db' = db ∧ ∀ name, reopened gs G name = reopened fs G name

/-- The key is gone from the map and from what a fresh handle loads, and nothing
else has changed. -/
def KeyLost (key : FileName) (db db' : DB V) (fs gs : Fs FileName) : Prop :=
  db' = { db with objectsMap := db.objectsMap.erase key } ∧
    ∀ name, reopened gs G name = (reopened fs G name).erase key

variable {G}

theorem reopened_congr {fs gs : Fs FileName} (h : ∀ k, stored gs G k = stored fs G k)
    (name : String) : reopened gs G name = reopened fs G name := by
  apply Finmap.ext_lookup
  intro k
  rw [lookup_reopened, lookup_reopened, h]

theorem reopened_unlink (fs : Fs FileName) (key : FileName) (name : String) :
    reopened (fs.unlink key) G name = (reopened fs G name).erase key := by
  apply Finmap.ext_lookup
  intro k
  rw [lookup_reopened, lookup_erase, lookup_reopened, stored_unlink]

theorem Coherent.not_undecodable {m : Objects V} {fs : Fs FileName} (h : Coherent G m fs)
    (k : FileName) : ¬ Undecodable G fs k := by
  rintro ⟨⟨i, hi⟩, hnone⟩
  have hread := h.readable k
  simp [hi, hnone] at hread

/-- A new file that does not decode stands beside the loadable ones. -/
theorem stored_torn {fs : Fs FileName} {d : Dir FileName} {key : FileName} {b : Bytes}
    (he : fs.entry key = none) (hd : fs.dir = some d) (hb : G.decode b = none) (k : FileName) :
    stored (withFile fs d hd key b) G k = stored fs G k := by
  rw [stored_withFile, hb]
  split_ifs with heq
  · rw [heq, stored_of_not_file fs G (by simp [he])]
  · rfl

theorem undecodable_torn {m : Objects V} {fs : Fs FileName} (h : Coherent G m fs)
    {d : Dir FileName} {key : FileName} {b : Bytes} (he : fs.entry key = none)
    (hd : fs.dir = some d) (hb : G.decode b = none) (k : FileName) :
    Undecodable G (withFile fs d hd key b) k ↔ k = key := by
  rw [Undecodable, stored_torn he hd hb, entry_withFile]
  by_cases heq : k = key
  · subst heq
    rw [if_pos rfl, stored_of_not_file fs G (by simp [he])]
    exact iff_of_true ⟨⟨_, rfl⟩, rfl⟩ rfl
  · rw [if_neg heq]
    exact iff_of_false (h.not_undecodable k) heq

section Faulty
variable (φ : Faults) {db db' : DB V} {fs gs : Fs FileName} (h : Coherent G db.objectsMap fs)
  {key : FileName} {e : Error}
include h

theorem run_delete_error (hrun : run (faulty φ) (delete db key) fs = ((db', some e), gs)) :
    φ.remove = true ∧ db' = db ∧ gs = fs := by
  cases hk : db.objectsMap.lookup key with
  | none =>
    rw [run_delete_absent φ fs db key (Or.inl hk)] at hrun
    cases hrun
  | some v =>
    obtain ⟨i, hi⟩ := h.file hk
    cases hφ : φ.remove with
    | true =>
      rw [run_delete_failed φ fs db hk hi hφ] at hrun
      cases hrun
      exact ⟨rfl, rfl, rfl⟩
    | false =>
      rw [run_delete_file φ fs db hk hi hφ] at hrun
      cases hrun

theorem run_delete_done (hrun : run (faulty φ) (delete db key) fs = ((db', none), gs)) :
    db' = { db with objectsMap := db.objectsMap.erase key } ∧
      Coherent G (db.objectsMap.erase key) gs ∧ ∀ k, stored gs G k = stored (fs.unlink key) G k := by
  cases hk : db.objectsMap.lookup key with
  | none =>
    rw [run_delete_absent φ fs db key (Or.inl hk)] at hrun
    cases hrun
    rw [erase_of_absent hk]
    refine ⟨rfl, h, fun k => ?_⟩
    have habsent : stored fs G key = none := stored_of_not_file fs G (by simp [h.absent hk])
    rw [stored_unlink]
    split_ifs with heq
    · rw [heq, habsent]
    · rfl
  | some v =>
    obtain ⟨i, hi⟩ := h.file hk
    cases hφ : φ.remove with
    | true =>
      rw [run_delete_failed φ fs db hk hi hφ] at hrun
      cases hrun
    | false =>
      rw [run_delete_file φ fs db hk hi hφ] at hrun
      cases hrun
      exact ⟨rfl, h.unlink key, fun k => rfl⟩

theorem run_put_error {v : V} (hrun : run (faulty φ) (put G db key v) fs = ((db', some e), gs)) :
    db' = db ∧ (∀ k, stored gs G k = stored fs G k) ∧
      ∀ k, Undecodable G gs k ↔ k = key ∧ Torn G φ fs key v := by
  have hsame : ∀ k, ¬ Torn G φ fs key v → (Undecodable G fs k ↔ k = key ∧ Torn G φ fs key v) :=
    fun k htorn => iff_of_false (h.not_undecodable k) fun hk => htorn hk.2
  cases he : fs.entry key with
  | some entry =>
    rw [run_put_exists φ fs G db v he] at hrun
    cases hrun
    exact ⟨rfl, fun _ => rfl, fun k => hsame k fun htorn => by simp [htorn.1] at he⟩
  | none =>
    obtain ⟨d, hd⟩ := Option.isSome_iff_exists.mp h.opened
    cases hc : φ.create with
    | true =>
      obtain ⟨e', hput⟩ := run_put_uncreated φ fs G db v he (Or.inr hc)
      rw [hput] at hrun
      cases hrun
      exact ⟨rfl, fun _ => rfl, fun k => hsame k fun htorn => by simp [htorn.2.1] at hc⟩
    | false =>
      by_cases hw : φ.Writes 0 (G.messages v)
      · rw [run_put_done φ fs G db v he hd hc hw] at hrun
        cases hrun
      · obtain ⟨done, b, todo, n, hsplit, hput⟩ := run_put_failed φ fs G db v he hd hc hw
        rw [hput] at hrun
        cases hrun
        have hpartial := G.decode_partial hsplit n
        refine ⟨rfl, stored_torn he hd hpartial, fun k => ?_⟩
        rw [undecodable_torn h he hd hpartial k]
        exact (and_iff_left ⟨he, hc, hw⟩).symm

theorem run_update_error {v : V}
    (hrun : run (faulty φ) (update G db key v) fs = ((db', some e), gs)) :
    (φ.remove = true ∧ db' = db ∧ gs = fs) ∨
    (KeyLost G key db db' fs gs ∧
      ∀ k, Undecodable G gs k ↔ k = key ∧ φ.create = false ∧ ¬ φ.Writes 0 (G.messages v)) := by
  rw [update, run_bind] at hrun
  generalize hdelete : run (faulty φ) (delete db key) fs = deleted at hrun
  obtain ⟨⟨mid, err⟩, ms⟩ := deleted
  cases err with
  | some e' =>
    cases hrun
    exact Or.inl (run_delete_error φ h hdelete)
  | none =>
    obtain ⟨rfl, hcoherent, hstored⟩ := run_delete_done φ h hdelete
    have hput : run (faulty φ) (put G { db with objectsMap := db.objectsMap.erase key } key v) ms =
        ((db', some e), gs) := hrun
    obtain ⟨hdb, hsame, htorn⟩ := run_put_error φ (by exact hcoherent) hput
    refine Or.inr ⟨⟨hdb, fun name => ?_⟩, fun k => ?_⟩
    · rw [← reopened_unlink]
      exact reopened_congr (fun k => (hsame k).trans (hstored k)) name
    · have habsent : ms.entry key = none := hcoherent.absent (Finmap.lookup_erase key _)
      rw [htorn k, Torn, and_iff_right habsent]

end Faulty

variable (G) in
/-- What a write operation that returns an error has left behind. -/
theorem failed_write_leaves (φ : Faults) (db : DB V) (fs : Fs FileName)
    (h : Coherent G db.objectsMap fs) (key : FileName) (v : V) (db' : DB V) (e : Error)
    (gs : Fs FileName) :
    (run (faulty φ) (delete db key) fs = ((db', some e), gs) →
      AsBefore G db db' fs gs ∧ ∀ k, ¬ Undecodable G gs k) ∧
    (run (faulty φ) (put G db key v) fs = ((db', some e), gs) →
      AsBefore G db db' fs gs ∧ ∀ k, Undecodable G gs k ↔ k = key ∧ Torn G φ fs key v) ∧
    (run (faulty φ) (update G db key v) fs = ((db', some e), gs) →
      (φ.remove = true ∧ AsBefore G db db' fs gs ∧ ∀ k, ¬ Undecodable G gs k) ∨
      (KeyLost G key db db' fs gs ∧
        ∀ k, Undecodable G gs k ↔ k = key ∧ φ.create = false ∧ ¬ φ.Writes 0 (G.messages v))) := by
  refine ⟨fun hrun => ?_, fun hrun => ?_, fun hrun => ?_⟩
  · obtain ⟨-, rfl, rfl⟩ := run_delete_error φ h hrun
    exact ⟨⟨rfl, fun _ => rfl⟩, h.not_undecodable⟩
  · obtain ⟨rfl, hstored, htorn⟩ := run_put_error φ h hrun
    exact ⟨⟨rfl, reopened_congr hstored⟩, htorn⟩
  · rcases run_update_error φ h hrun with ⟨hremove, rfl, rfl⟩ | hlost
    · exact Or.inl ⟨hremove, ⟨rfl, fun _ => rfl⟩, h.not_undecodable⟩
    · exact Or.inr hlost

def titleDB : DB GoJson.ConfigData := ⟨"config", (∅ : Objects GoJson.ConfigData).insert titleKey ⟨"a"⟩⟩

def titleFs : Fs FileName := withFile Fs.empty ∅ rfl titleKey (GoGob.configGob.stream ⟨"a"⟩)

theorem coherent_title : Coherent GoGob.configGob titleDB.objectsMap titleFs := by
  have hempty : Coherent GoGob.configGob ∅ Fs.empty :=
    ⟨rfl, fun k => rfl, fun k => rfl⟩
  exact hempty.withFile rfl titleKey ⟨"a"⟩

def noCreate : Faults := { Faults.clear with create := true }

def titleLost : DB GoJson.ConfigData :=
  { titleDB with objectsMap := titleDB.objectsMap.erase titleKey }

theorem run_update_noCreate :
    run (faulty noCreate) (update GoGob.configGob titleDB titleKey ⟨"b"⟩) titleFs =
      ((titleLost, some (.os .io)), titleFs.unlink titleKey) := by
  have hlookup : titleDB.objectsMap.lookup titleKey = some ⟨"a"⟩ := Finmap.lookup_insert _
  have hentry : titleFs.entry titleKey = some (.file 0) := by decide
  have hgone : (titleFs.unlink titleKey).entry titleKey = none := by decide
  rw [update, run_bind, run_delete_file noCreate titleFs titleDB hlookup hentry rfl]
  simp [put, run_bind, run_fileExists_entry, hgone, run_call, faulty, Faults.of, noCreate, respond,
    fail, titleLost]

theorem failed_write_leaves_title :
    (noCreate.remove = true ∧ AsBefore GoGob.configGob titleDB titleLost titleFs
        (titleFs.unlink titleKey) ∧
      ∀ k, ¬ Undecodable GoGob.configGob (titleFs.unlink titleKey) k) ∨
    (KeyLost GoGob.configGob titleKey titleDB titleLost titleFs (titleFs.unlink titleKey) ∧
      ∀ k, Undecodable GoGob.configGob (titleFs.unlink titleKey) k ↔
        k = titleKey ∧ noCreate.create = false ∧
          ¬ noCreate.Writes 0 (GoGob.configGob.messages ⟨"b"⟩)) :=
  (failed_write_leaves GoGob.configGob noCreate titleDB titleFs coherent_title titleKey ⟨"b"⟩
    titleLost (.os .io) (titleFs.unlink titleKey)).2.2 run_update_noCreate

/-- An update that cannot create the new file loses the key. -/
theorem failed_update_loses_key :
    ¬ ∀ (φ : Faults) (db : DB GoJson.ConfigData) (fs : Fs FileName),
      Coherent GoGob.configGob db.objectsMap fs → ∀ key v db' e gs,
        ∀ op ∈ [delete db key, put GoGob.configGob db key v, update GoGob.configGob db key v],
          run (faulty φ) op fs = ((db', some e), gs) →
            AsBefore GoGob.configGob db db' fs gs ∧ ∀ k, ¬ Undecodable GoGob.configGob gs k := by
  intro h
  obtain ⟨⟨hsame, -⟩, -⟩ := h noCreate titleDB titleFs coherent_title titleKey ⟨"b"⟩ titleLost
    (.os .io) (titleFs.unlink titleKey) _ (by simp) run_update_noCreate
  have hlookup := congrArg (fun db => db.objectsMap.lookup titleKey) hsame
  simp [titleLost, titleDB] at hlookup

end NexFi.StoreDB
