import Mathlib.Logic.Function.Basic
import NexFi.StoreRefinement

/-!
# Several handles on one directory

Each handle keeps the map it loaded, and the others change the directory behind
it. `Put` looks at the disk and repairs the map, so its success is the truth.
`Delete` returns without an error when the map does not know the key, whatever
the disk holds, and when the file is gone, without taking the key off the map.
-/

namespace NexFi.StoreDB
open Posix Prog

variable {ι V : Type} [DecidableEq ι]

structure Shared (ι V : Type) where
  handles : ι → DB V
  fs : Fs FileName

/-- A whole operation of a handle; `opening` makes a new one. -/
inductive HandleOp (V : Type)
  | opening (name : String)
  | init
  | put (key : FileName) (value : V)
  | update (key : FileName) (value : V)
  | delete (key : FileName)

variable (G : Gob V)

def HandleOp.prog (db : DB V) : HandleOp V → Io (DB V × Option Error)
  | .opening name => StoreDB.init G (newDB name)
  | .init => StoreDB.init G db
  | .put key value => StoreDB.put G db key value
  | .update key value => StoreDB.update G db key value
  | .delete key => StoreDB.delete db key

namespace Shared

def ran (s : Shared ι V) (step : ι × HandleOp V) : (DB V × Option Error) × Fs FileName :=
  run perform (step.2.prog G (s.handles step.1)) s.fs

def next (s : Shared ι V) (step : ι × HandleOp V) : Shared ι V :=
  ⟨Function.update s.handles step.1 (s.ran G step).1.1, (s.ran G step).2⟩

def runs (s : Shared ι V) (steps : List (ι × HandleOp V)) : Shared ι V := steps.foldl (next G) s

def start (fs : Fs FileName) : Shared ι V := ⟨fun _ => newDB "", fs⟩

end Shared

/-- What a success promises of the handle and of every handle opened after it.
Two values that differ in nil and empty slices only count as the same. -/
def HandleOp.Promise (db : DB V) (fs : Fs FileName) : HandleOp V → Prop
  | .opening _ => True
  | .init => True
  | .put key value => get db key = some value ∧
      ∀ name, (reopened fs G name).lookup key = some (G.canon value)
  | .update key value => get db key = some value ∧
      ∀ name, (reopened fs G name).lookup key = some (G.canon value)
  | .delete key => has db key = false ∧ ∀ name, (reopened fs G name).lookup key = none

def Done (s : Shared ι V) (i : ι) (op : HandleOp V) : Prop :=
  (s.ran G (i, op)).1.2 = none →
    op.Promise G ((s.next G (i, op)).handles i) (s.next G (i, op)).fs

/-- `Delete` finds a file for a key of its map, and no loadable file for any other key. -/
def UpToDate (s : Shared ι V) (i : ι) : HandleOp V → Prop
  | .delete key => (has (s.handles i) key = true → (s.fs.entry key).isSome = true) ∧
      (has (s.handles i) key = false → ∀ name, (reopened s.fs G name).lookup key = none)
  | _ => True

variable {G}

theorem lookup_reopened_all {fs : Fs FileName} {key : FileName} {v : Option V} :
    (∀ name, (reopened fs G name).lookup key = v) ↔ stored fs G key = v := by
  simp [lookup_reopened]

theorem run_put_nil {db db' : DB V} {fs gs : Fs FileName} {key : FileName} {v : V}
    (h : run perform (put G db key v) fs = ((db', none), gs)) :
    db'.objectsMap = db.objectsMap.insert key v ∧ stored gs G key = some (G.canon v) := by
  rw [← faulty_clear] at h
  cases he : fs.entry key with
  | some e =>
    rw [run_put_exists Faults.clear fs G db v he] at h
    cases h
  | none =>
    cases hd : fs.dir with
    | none =>
      obtain ⟨e, hput⟩ := run_put_uncreated Faults.clear fs G db v he (Or.inl hd)
      rw [hput] at h
      cases h
    | some d =>
      rw [run_put_done Faults.clear fs G db v he hd rfl fun _ _ => rfl] at h
      cases h
      rw [stored_withFile, if_pos rfl, G.decode_stream]
      exact ⟨rfl, rfl⟩

theorem run_update_nil {db db' : DB V} {fs gs : Fs FileName} {key : FileName} {v : V}
    (h : run perform (update G db key v) fs = ((db', none), gs)) :
    db'.objectsMap.lookup key = some v ∧ stored gs G key = some (G.canon v) := by
  rw [update, run_bind] at h
  generalize run perform (delete db key) fs = deleted at h
  obtain ⟨⟨mid, err⟩, ms⟩ := deleted
  cases err with
  | some e => cases h
  | none =>
    obtain ⟨hmap, hstored⟩ := run_put_nil h
    rw [hmap]
    exact ⟨Finmap.lookup_insert _, hstored⟩

theorem run_delete_known {db : DB V} {key : FileName} (hk : has db key = true) (fs : Fs FileName) :
    (fs.entry key = none ∧ run perform (delete db key) fs = ((db, none), fs)) ∨
    ((fs.entry key).isSome = true ∧ ∃ e, run perform (delete db key) fs = ((db, some e), fs)) ∨
    ((fs.entry key).isSome = true ∧ run perform (delete db key) fs =
      (({ db with objectsMap := db.objectsMap.erase key }, none), fs.unlink key)) := by
  have hexists := run_fileExists_entry Faults.clear fs key
  rw [faulty_clear] at hexists
  have hok : (fs.entry key).isSome = true → fs.remove key = (.ok (), fs.unlink key) →
      run perform (delete db key) fs =
        (({ db with objectsMap := db.objectsMap.erase key }, none), fs.unlink key) := by
    intro he hremove
    simp [delete, hk, run_bind, hexists, he, run_call, perform, hremove]
  cases he : fs.entry key with
  | none =>
    have habsent := run_delete_absent Faults.clear fs db key (Or.inr he)
    rw [faulty_clear] at habsent
    exact Or.inl ⟨rfl, habsent⟩
  | some entry =>
    rw [he] at hok
    cases entry with
    | file i => exact Or.inr (Or.inr ⟨rfl, hok rfl (Fs.remove_file he)⟩)
    | subdir empty =>
      cases empty with
      | true => exact Or.inr (Or.inr ⟨rfl, hok rfl (by simp [Fs.remove, he])⟩)
      | false =>
        have hremove : fs.remove key = (.error .notEmpty, fs) := by simp [Fs.remove, he]
        refine Or.inr (Or.inl ⟨rfl, .os .notEmpty, ?_⟩)
        simp [delete, hk, run_bind, hexists, he, run_call, perform, hremove]

section Step
variable (s : Shared ι V) (i : ι) (key : FileName)

theorem done_ran (op : HandleOp V) {db' : DB V} {err : Option Error} {gs : Fs FileName}
    (h : run perform (op.prog G (s.handles i)) s.fs = ((db', err), gs)) :
    Done G s i op ↔ (err = none → op.Promise G db' gs) := by
  have hran : s.ran G (i, op) = ((db', err), gs) := h
  have hhandle : (s.next G (i, op)).handles i = db' := by simp [Shared.next, hran]
  have hfs : (s.next G (i, op)).fs = gs := by simp [Shared.next, hran]
  rw [Done, hhandle, hfs, hran]

theorem done_put (v : V) : Done G s i (.put key v) := by
  generalize hran : run perform (put G (s.handles i) key v) s.fs = result
  obtain ⟨⟨db', err⟩, gs⟩ := result
  rw [done_ran s i (.put key v) hran]
  rintro rfl
  obtain ⟨hmap, hstored⟩ := run_put_nil hran
  refine ⟨?_, lookup_reopened_all.mpr hstored⟩
  rw [get, hmap]
  exact Finmap.lookup_insert _

theorem done_update (v : V) : Done G s i (.update key v) := by
  generalize hran : run perform (update G (s.handles i) key v) s.fs = result
  obtain ⟨⟨db', err⟩, gs⟩ := result
  rw [done_ran s i (.update key v) hran]
  rintro rfl
  obtain ⟨hmap, hstored⟩ := run_update_nil hran
  exact ⟨hmap, lookup_reopened_all.mpr hstored⟩

theorem done_delete_known (hk : has (s.handles i) key = true) :
    Done G s i (.delete key) ↔ (s.fs.entry key).isSome = true := by
  rcases run_delete_known hk s.fs with ⟨he, hran⟩ | ⟨he, e, hran⟩ | ⟨he, hran⟩
  · rw [done_ran s i (.delete key) hran, he]
    exact iff_of_false (fun hpromise => by simp [(hpromise rfl).1] at hk) (by simp)
  · rw [done_ran s i (.delete key) hran]
    exact iff_of_true (fun herr => by cases herr) he
  · rw [done_ran s i (.delete key) hran]
    refine iff_of_true (fun _ => ⟨?_, lookup_reopened_all.mpr ?_⟩) he
    · rw [has, Finmap.lookup_erase]
      rfl
    · rw [stored_unlink, if_pos rfl]

theorem done_delete_unknown (hk : has (s.handles i) key = false) :
    Done G s i (.delete key) ↔ ∀ name, (reopened s.fs G name).lookup key = none := by
  have hran : run perform (delete (s.handles i) key) s.fs = ((s.handles i, none), s.fs) := by
    simp [delete, hk]
  rw [done_ran s i (.delete key) hran]
  exact ⟨fun hpromise => (hpromise rfl).2, fun hnone _ => ⟨hk, hnone⟩⟩

theorem done_iff (op : HandleOp V) : Done G s i op ↔ UpToDate G s i op := by
  cases op with
  | opening name => exact iff_of_true (fun _ => trivial) trivial
  | init => exact iff_of_true (fun _ => trivial) trivial
  | put key v => exact iff_of_true (done_put s i key v) trivial
  | update key v => exact iff_of_true (done_update s i key v) trivial
  | delete key =>
    cases hk : has (s.handles i) key with
    | true =>
      rw [done_delete_known s i key hk]
      simp [UpToDate, hk]
    | false =>
      rw [done_delete_unknown s i key hk]
      simp [UpToDate, hk]

end Step

variable (G) in
/-- In a run of any handles on any directory every success is the truth exactly
when every `Delete` met a map that is up to date on its key. -/
theorem success_means_done (fs : Fs FileName) (steps : List (ι × HandleOp V)) :
    (∀ before i op after, steps = before ++ (i, op) :: after →
      Done G ((Shared.start fs).runs G before) i op) ↔
    ∀ before i op after, steps = before ++ (i, op) :: after →
      UpToDate G ((Shared.start fs).runs G before) i op := by
  refine forall₅_congr fun before i op after _ => ?_
  exact done_iff _ i op

def deletedTwice : List (Bool × HandleOp GoJson.ConfigData) :=
  [(false, .opening "config"), (false, .put titleKey ⟨"a"⟩), (true, .opening "config"),
    (false, .delete titleKey), (true, .delete titleKey)]

/-- The second deletion succeeds and its handle still has the key. -/
theorem deleted_twice_kept :
    ¬ ∀ (fs : Fs FileName) (steps : List (Bool × HandleOp GoJson.ConfigData)),
      ∀ before i op after, steps = before ++ (i, op) :: after →
        Done GoGob.configGob ((Shared.start fs).runs GoGob.configGob before) i op := by
  intro h
  have hlast := h Fs.empty deletedTwice (deletedTwice.take 4) true (.delete titleKey) [] rfl
  have hhas : has (((Shared.start Fs.empty).runs GoGob.configGob
      (deletedTwice.take 4)).handles true) titleKey = true := by decide +kernel
  have hentry : (((Shared.start Fs.empty).runs GoGob.configGob
      (deletedTwice.take 4)).fs.entry titleKey).isSome = false := by decide +kernel
  rw [done_delete_known _ _ _ hhas, hentry] at hlast
  cases hlast

end NexFi.StoreDB
