import NexFi.GoGob
import NexFi.StoreRuns

/-!
# The database refines a finite map

The specification is a finite map and knows nothing of files. `Coherent` ties
the two copies of the state together: a key is in the map exactly when it has an
entry on the disk, and the file decodes to the object up to `canon`. Every
operation keeps it and answers as the map does, and so does reopening.
-/

namespace NexFi.StoreDB
open Posix Prog

inductive Op (V : Type)
  | put (key : FileName) (value : V)
  | update (key : FileName) (value : V)
  | delete (key : FileName)
  | get (key : FileName)
  | has (key : FileName)
  | count
  | fileExists (key : FileName)
  | reopen

inductive Result (V : Type)
  | error (err : Option Error)
  | value (v : Option V)
  | flag (b : Bool)
  | number (n : ℕ)
  deriving DecidableEq

def Result.map {V W : Type} (f : V → W) : Result V → Result W
  | .error e => .error e
  | .value v => .value (v.map f)
  | .flag b => .flag b
  | .number n => .number n

variable {V : Type} (G : Gob V)

def exec (db : DB V) : Op V → Io (DB V × Result V)
  | .put key value => do
    let (db, err) ← put G db key value
    return (db, .error err)
  | .update key value => do
    let (db, err) ← update G db key value
    return (db, .error err)
  | .delete key => do
    let (db, err) ← delete db key
    return (db, .error err)
  | .get key => return (db, .value (get db key))
  | .has key => return (db, .flag (has db key))
  | .count => return (db, .number (count db))
  | .fileExists key => do
    let b ← dbFileExists key
    return (db, .flag b)
  | .reopen => do
    let (db, err) ← init G (newDB db.name)
    return (db, .error err)

def execAll (db : DB V) : List (Op V) → Io (DB V × List (Result V))
  | [] => return (db, [])
  | op :: ops => do
    let (db, r) ← exec G db op
    let (db, rs) ← execAll db ops
    return (db, r :: rs)

/-- The store as its callers may think of it. -/
def spec (m : Objects V) : Op V → Objects V × Result V
  | .put key value =>
    if (m.lookup key).isSome then (m, .error (some (.text "file already exists")))
    else (m.insert key value, .error none)
  | .update key value => (m.insert key value, .error none)
  | .delete key => (m.erase key, .error none)
  | .get key => (m, .value (m.lookup key))
  | .has key => (m, .flag (m.lookup key).isSome)
  | .count => (m, .number m.keys.card)
  | .fileExists key => (m, .flag (m.lookup key).isSome)
  | .reopen => (m, .error none)

def specAll (m : Objects V) : List (Op V) → Objects V × List (Result V)
  | [] => (m, [])
  | op :: ops =>
    let (m, r) := spec m op
    let (m, rs) := specAll m ops
    (m, r :: rs)

structure Coherent (m : Objects V) (fs : Fs FileName) : Prop where
  opened : fs.dir.isSome
  present : ∀ k, (fs.entry k).isSome = (m.lookup k).isSome
  decodes : ∀ k, (stored fs G k).map G.canon = (m.lookup k).map G.canon

/-- The two maps hold the same values up to the difference gob forgets. -/
def Agree (m n : Objects V) : Prop := ∀ k, (m.lookup k).map G.canon = (n.lookup k).map G.canon

theorem erase_of_absent {m : Objects V} {key : FileName} (h : m.lookup key = none) :
    m.erase key = m := by
  apply Finmap.ext_lookup
  intro k
  by_cases hk : k = key
  · subst hk
    rw [Finmap.lookup_erase, h]
  · exact Finmap.lookup_erase_ne hk

theorem insert_erase (m : Objects V) (key : FileName) (v : V) :
    (m.erase key).insert key v = m.insert key v := by
  apply Finmap.ext_lookup
  intro k
  by_cases hk : k = key
  · subst hk
    simp
  · simp [hk, Finmap.lookup_insert_of_ne, Finmap.lookup_erase_ne]

theorem lookup_insert (m : Objects V) (key k : FileName) (v : V) :
    (m.insert key v).lookup k = if k = key then some v else m.lookup k := by
  split_ifs with hk
  · subst hk
    exact Finmap.lookup_insert m
  · exact Finmap.lookup_insert_of_ne m hk

theorem lookup_erase (m : Objects V) (key k : FileName) :
    (m.erase key).lookup k = if k = key then none else m.lookup k := by
  split_ifs with hk
  · subst hk
    exact Finmap.lookup_erase k m
  · exact Finmap.lookup_erase_ne hk

variable {G}

theorem Coherent.file {m : Objects V} {fs : Fs FileName} (h : Coherent G m fs) {key : FileName}
    {v : V} (hk : m.lookup key = some v) : ∃ i, fs.entry key = some (.file i) := by
  by_contra hno
  have hs := h.decodes key
  rw [stored_of_not_file fs G hno, hk] at hs
  cases hs

theorem Coherent.absent {m : Objects V} {fs : Fs FileName} (h : Coherent G m fs) {key : FileName}
    (hk : m.lookup key = none) : fs.entry key = none := by
  have hp := h.present key
  simpa [hk] using hp

theorem Coherent.withFile {m : Objects V} {fs : Fs FileName} (h : Coherent G m fs)
    {d : Dir FileName} (hd : fs.dir = some d) (key : FileName) (v : V) :
    Coherent G (m.insert key v) (withFile fs d hd key (G.stream v)) where
  opened := rfl
  present k := by
    rw [entry_withFile, lookup_insert]
    split_ifs
    · rfl
    · exact h.present k
  decodes k := by
    rw [stored_withFile, lookup_insert]
    split_ifs
    · simp [G.decode_stream, G.canon_canon]
    · exact h.decodes k

theorem put_coherent (db : DB V) {fs : Fs FileName} (h : Coherent G db.objectsMap fs)
    {key : FileName} (hk : db.objectsMap.lookup key = none) (v : V) :
    ∃ gs, run perform (put G db key v) fs =
        (({ db with objectsMap := db.objectsMap.insert key v }, none), gs) ∧
      Coherent G (db.objectsMap.insert key v) gs := by
  obtain ⟨d, hd⟩ := Option.isSome_iff_exists.mp h.opened
  have hrun := run_put_done Faults.clear fs G db v (h.absent hk) hd rfl fun j _ => rfl
  rw [faulty_clear] at hrun
  exact ⟨_, hrun, h.withFile hd key v⟩

theorem Coherent.unlink {m : Objects V} {fs : Fs FileName} (h : Coherent G m fs) (key : FileName) :
    Coherent G (m.erase key) (fs.unlink key) where
  opened := by simpa using h.opened
  present k := by
    rw [Fs.entry_unlink, lookup_erase]
    split_ifs
    · rfl
    · exact h.present k
  decodes k := by
    rw [stored_unlink, lookup_erase]
    split_ifs
    · rfl
    · exact h.decodes k

theorem delete_coherent {db : DB V} {fs : Fs FileName} (h : Coherent G db.objectsMap fs)
    (key : FileName) :
    ∃ gs, run perform (delete db key) fs =
        (({ db with objectsMap := db.objectsMap.erase key }, none), gs) ∧
      Coherent G (db.objectsMap.erase key) gs := by
  cases hk : db.objectsMap.lookup key with
  | none =>
    have hrun := run_delete_absent Faults.clear fs db key (Or.inl hk)
    rw [faulty_clear] at hrun
    rw [erase_of_absent hk]
    exact ⟨fs, hrun, h⟩
  | some v =>
    obtain ⟨i, hi⟩ := h.file hk
    have hrun := run_delete_file Faults.clear fs db hk hi rfl
    rw [faulty_clear] at hrun
    exact ⟨_, hrun, h.unlink key⟩

theorem update_coherent {db : DB V} {fs : Fs FileName} (h : Coherent G db.objectsMap fs)
    (key : FileName) (v : V) :
    ∃ gs, run perform (update G db key v) fs =
        (({ db with objectsMap := db.objectsMap.insert key v }, none), gs) ∧
      Coherent G (db.objectsMap.insert key v) gs := by
  obtain ⟨gs, hdel, hgs⟩ := delete_coherent h key
  obtain ⟨hs, hput, hhs⟩ := put_coherent { db with objectsMap := db.objectsMap.erase key } hgs
    (Finmap.lookup_erase key _) v
  rw [insert_erase] at hput hhs
  refine ⟨hs, ?_, hhs⟩
  simp [update, run_bind, hdel, hput]

/-- Opening rebuilds the map from any directory whose entries are decodable
files, a missing directory included. -/
theorem init_coherent (fs : Fs FileName) (h : ∀ k, (fs.entry k).isSome = (stored fs G k).isSome)
    (db : DB V) (hdb : db.objectsMap = ∅) :
    ∃ m, run perform (init G db) fs = (({ db with objectsMap := m }, none), fs.mkdirAll) ∧
      Coherent G m fs.mkdirAll ∧ ∀ k, m.lookup k = stored fs G k := by
  have hrun := run_init_listed Faults.clear fs G ⟨fun _ => rfl, rfl⟩ db
  rw [faulty_clear] at hrun
  have hlookup : ∀ k, (filled fs G db.objectsMap).lookup k = stored fs G k := by
    intro k
    rw [lookup_filled, hdb, Finmap.lookup_empty, Option.or_none]
  refine ⟨_, hrun, ⟨by simp, fun k => ?_, fun k => ?_⟩, hlookup⟩
  · rw [Fs.entry_mkdirAll, hlookup, h]
  · rw [stored_mkdirAll, hlookup]

theorem Coherent.readable {m : Objects V} {fs : Fs FileName} (h : Coherent G m fs) (k : FileName) :
    (fs.entry k).isSome = (stored fs G k).isSome := by
  rw [h.present, ← Option.isSome_map (f := G.canon), ← h.decodes, Option.isSome_map]

theorem Agree.isSome {m n : Objects V} (h : Agree G m n) (k : FileName) :
    (m.lookup k).isSome = (n.lookup k).isSome := by
  rw [← Option.isSome_map (f := G.canon), h k, Option.isSome_map]

theorem Agree.keys {m n : Objects V} (h : Agree G m n) : m.keys = n.keys := by
  ext k
  rw [Finmap.mem_keys, Finmap.mem_keys, ← Finmap.lookup_isSome, ← Finmap.lookup_isSome, h.isSome k]

theorem Agree.insert {m n : Objects V} (h : Agree G m n) (key : FileName) (v : V) :
    Agree G (m.insert key v) (n.insert key v) := by
  intro k
  rw [lookup_insert, lookup_insert]
  split_ifs
  · rfl
  · exact h k

theorem Agree.erase {m n : Objects V} (h : Agree G m n) (key : FileName) :
    Agree G (m.erase key) (n.erase key) := by
  intro k
  rw [lookup_erase, lookup_erase]
  split_ifs
  · rfl
  · exact h k

theorem exec_refines {db : DB V} {fs : Fs FileName} {m : Objects V}
    (h : Coherent G db.objectsMap fs) (hm : Agree G db.objectsMap m) (op : Op V) :
    ∃ db' r gs, run perform (exec G db op) fs = ((db', r), gs) ∧
      Coherent G db'.objectsMap gs ∧ Agree G db'.objectsMap (spec m op).1 ∧
      r.map G.canon = (spec m op).2.map G.canon := by
  cases op with
  | put key value =>
    have hp := hm.isSome key
    cases hk : db.objectsMap.lookup key with
    | none =>
      obtain ⟨gs, hrun, hgs⟩ := put_coherent db h hk value
      refine ⟨{ db with objectsMap := db.objectsMap.insert key value }, .error none, gs,
        by simp [exec, run_bind, hrun], hgs, ?_⟩
      have hmk : m.lookup key = none := by simpa [hk] using hp.symm
      simpa [spec, hmk, Result.map] using hm.insert key value
    | some v =>
      obtain ⟨i, hi⟩ := h.file hk
      have hrun := run_put_exists Faults.clear fs G db value hi
      rw [faulty_clear] at hrun
      refine ⟨db, .error (some (.text "file already exists")), fs, by simp [exec, run_bind, hrun], h, ?_⟩
      have hmk : (m.lookup key).isSome := by simpa [hk] using hp.symm
      simpa [spec, hmk, Result.map] using hm
  | update key value =>
    obtain ⟨gs, hrun, hgs⟩ := update_coherent h key value
    exact ⟨{ db with objectsMap := db.objectsMap.insert key value }, .error none, gs,
      by simp [exec, run_bind, hrun], hgs, hm.insert key value, rfl⟩
  | delete key =>
    obtain ⟨gs, hrun, hgs⟩ := delete_coherent h key
    exact ⟨{ db with objectsMap := db.objectsMap.erase key }, .error none, gs,
      by simp [exec, run_bind, hrun], hgs, hm.erase key, rfl⟩
  | get key => exact ⟨db, _, fs, rfl, h, hm, congrArg Result.value (hm key)⟩
  | has key => exact ⟨db, _, fs, rfl, h, hm, congrArg Result.flag (hm.isSome key)⟩
  | count => exact ⟨db, _, fs, rfl, h, hm, congrArg (fun s : Finset FileName => (Result.number s.card : Result V)) hm.keys⟩
  | fileExists key =>
    have hrun := run_fileExists_entry Faults.clear fs key
    rw [faulty_clear] at hrun
    refine ⟨db, .flag (fs.entry key).isSome, fs, by simp [exec, dbFileExists, run_bind, hrun], h, hm,
      ?_⟩
    exact congrArg Result.flag ((h.present key).trans (hm.isSome key))
  | reopen =>
    obtain ⟨n, hrun, hn, hlookup⟩ := init_coherent fs h.readable (newDB db.name) rfl
    rw [Fs.mkdirAll_of_some h.opened] at hrun hn
    refine ⟨{ (newDB db.name : DB V) with objectsMap := n }, .error none, fs,
      by simp [exec, run_bind, hrun], hn, fun k => ?_, rfl⟩
    rw [hlookup, h.decodes k]
    exact hm k

theorem execAll_refines (db : DB V) {fs : Fs FileName} {m : Objects V}
    (h : Coherent G db.objectsMap fs) (hm : Agree G db.objectsMap m) (ops : List (Op V)) :
    ∃ db' rs gs, run perform (execAll G db ops) fs = ((db', rs), gs) ∧
      Coherent G db'.objectsMap gs ∧ Agree G db'.objectsMap (specAll m ops).1 ∧
      rs.map (Result.map G.canon) = (specAll m ops).2.map (Result.map G.canon) := by
  induction ops generalizing db fs m with
  | nil => exact ⟨db, [], fs, rfl, h, hm, rfl⟩
  | cons op ops ih =>
    obtain ⟨db', r, gs, hrun, hgs, hm', hr⟩ := exec_refines h hm op
    obtain ⟨db'', rs, hs, hruns, hhs, hm'', hrs⟩ := ih db' hgs hm'
    refine ⟨db'', r :: rs, hs, by simp [execAll, run_bind, hrun, hruns], hhs, hm'', ?_⟩
    simp only [List.map_cons, hr, hrs, specAll]

variable (G) in
/-- Over any sequence of operations and reopenings from an empty or missing
directory, the results are those of the finite map, and at its end map and
directory agree on every key. -/
theorem store_refines_map (name : String) (fs : Fs FileName) (hfs : ∀ d ∈ fs.dir, d = ∅)
    (ops : List (Op V)) :
    let opened := run perform (init G (newDB name)) fs
    let final := run perform (execAll G opened.1.1 ops) opened.2
    opened.1.2 = none ∧
      final.1.2.map (Result.map G.canon) = (specAll ∅ ops).2.map (Result.map G.canon) ∧
      ∀ k, run perform (dbFileExists k) final.2 = (has final.1.1 k, final.2) ∧
        (stored final.2 G k).map G.canon = (get final.1.1 k).map G.canon ∧
        (get final.1.1 k).map G.canon = ((specAll ∅ ops).1.lookup k).map G.canon := by
  have hentry : ∀ k, fs.entry k = none := by
    intro k
    cases hd : fs.dir with
    | none => exact Fs.entry_of_missing hd k
    | some d =>
      obtain rfl := hfs d hd
      simp [Fs.entry, entryOf, hd]
  have hstored : ∀ k, stored fs G k = none := fun k =>
    stored_of_not_file fs G (by simp [hentry])
  obtain ⟨m, hopen, hcoh, hlookup⟩ :=
    init_coherent (G := G) fs (by simp [hentry, hstored]) (newDB name) rfl
  have hempty : Agree G m ∅ := by
    intro k
    rw [hlookup, hstored, Finmap.lookup_empty]
  obtain ⟨db, rs, gs, hrun, hgs, hagree, hrs⟩ := execAll_refines
    { (newDB name : DB V) with objectsMap := m } hcoh hempty ops
  simp only [hopen, hrun]
  refine ⟨trivial, hrs, fun k => ⟨?_, hgs.decodes k, hagree k⟩⟩
  have hexists := run_fileExists_entry Faults.clear gs k
  rw [faulty_clear, hgs.present k] at hexists
  exact hexists

theorem store_refines_map_config :
    let key : FileName := ⟨"title", by decide⟩
    let ops : List (Op GoJson.ConfigData) :=
      [.put key ⟨"a"⟩, .put key ⟨"b"⟩, .reopen, .update key ⟨"c"⟩, .get key, .delete key, .count]
    let opened := run perform (init GoGob.configGob (newDB "config")) Fs.empty
    let final := run perform (execAll GoGob.configGob opened.1.1 ops) opened.2
    final.1.2.map (Result.map GoGob.configGob.canon) =
      [.error none, .error (some (.text "file already exists")), .error none, .error none,
        .value (some ⟨"c"⟩), .error none, .number 0] := by
  refine (store_refines_map GoGob.configGob "config" Fs.empty (fun d hd => ?_) _).2.1
  cases hd
  rfl

end NexFi.StoreDB
