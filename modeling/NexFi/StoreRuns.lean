import NexFi.StoreDB

/-!
# The database operations run to the end

Each operation is run alone against a directory whose failing calls are given
by a `Faults` pattern; the pattern without faults is the plain system. The state
after an operation is described through `stored`, the value a fresh reader finds
under a key.
-/

namespace NexFi.StoreDB
open Posix Prog

/-- Which calls of one request fail. A write is named by the offset it starts
at; when it fails it has stored the given number of bytes. -/
structure Faults where
  mkdir : Bool
  openDir : Bool
  remove : Bool
  create : Bool
  write : ℕ → Option ℕ

def Faults.clear : Faults := ⟨false, false, false, false, fun _ => none⟩

def Faults.of (φ : Faults) : Call FileName → Option ℕ
  | .mkdirAll => if φ.mkdir then some 0 else none
  | .readDir => if φ.openDir then some 0 else none
  | .remove _ => if φ.remove then some 0 else none
  | .create _ => if φ.create then some 0 else none
  | .write f _ => φ.write f.offset
  | .stat _ => none
  | .readFile _ => none

def faulty (φ : Faults) : System FileName := fun c fs => respond (φ.of c) c fs

@[simp] theorem faulty_clear : faulty Faults.clear = perform := by
  funext c fs
  cases c <;> rfl

variable (φ : Faults) (fs : Fs FileName) {V : Type} (G : Gob V)

/-- The value under a key as a fresh reader decodes it. -/
def stored (key : FileName) : Option V := (fs.content key).bind G.decode

theorem run_fileExists_entry (k : FileName) :
    run (faulty φ) (fileExists (.entry k)) fs = ((fs.entry k).isSome, fs) := by
  cases h : fs.entry k with
  | none => simp [fileExists, run_call, faulty, respond, Faults.of, perform, h]
  | some e => cases e <;> simp [fileExists, run_call, faulty, respond, Faults.of, perform, h]

theorem run_fileExists_location :
    run (faulty φ) (fileExists .location) fs = (fs.dir.isSome, fs) := by
  cases h : fs.dir <;> simp [fileExists, run_call, faulty, respond, Faults.of, perform, h]

theorem run_fileIsDir_location :
    run (faulty φ) (fileIsDir .location) fs = (fs.dir.isSome, fs) := by
  cases h : fs.dir with
  | none => simp [fileIsDir, run_call, faulty, respond, Faults.of, perform, h]
  | some d =>
    simp only [fileIsDir, op_bind, run_call, faulty, respond, Faults.of, perform, h]
    rfl

theorem run_locationMissing :
    run (faulty φ) locationMissing fs = (!fs.dir.isSome, fs) := by
  rw [locationMissing, run_bind, run_fileExists_location]
  cases h : fs.dir with
  | none => rfl
  | some d => simp [run_bind, run_fileIsDir_location, h]

theorem run_listDirFiles (hφ : φ.openDir = false) {d : Dir FileName} (hd : fs.dir = some d) :
    run (faulty φ) listDirFiles fs =
      (.ok (((Fs.names d).filter fun info => !info.2).map Prod.fst), fs) := by
  simp [listDirFiles, run_call, faulty, respond, Faults.of, perform, hφ, hd]

theorem run_readFile (file : FileName) :
    ∃ e, run (faulty φ) (readFile G file) fs =
      (match stored fs G file with | some obj => .ok obj | none => .error e, fs) := by
  cases h : fs.entry file with
  | none =>
    refine ⟨.os .notExist, ?_⟩
    simp [readFile, run_call, faulty, respond, Faults.of, perform, stored, Fs.content, h]
  | some e =>
    cases e with
    | subdir b =>
      refine ⟨.os .isDir, ?_⟩
      simp [readFile, run_call, faulty, respond, Faults.of, perform, stored, Fs.content, h]
    | file i =>
      refine ⟨.text "gob", ?_⟩
      cases hd : G.decode (fs.data i) <;>
        simp [readFile, run_call, faulty, respond, Faults.of, perform, stored, Fs.content, h, hd]

/-- The map `Init` builds from a listing. -/
def loaded (m : Objects V) (files : List FileName) : Objects V :=
  files.foldl (fun m file =>
    match stored fs G file with
    | some obj => m.insert file obj
    | none => m) m

theorem run_loadFiles (db : DB V) (files : List FileName) :
    run (faulty φ) (loadFiles G db files) fs =
      ({ db with objectsMap := loaded fs G db.objectsMap files }, fs) := by
  induction files generalizing db with
  | nil => rfl
  | cons file files ih =>
    obtain ⟨e, he⟩ := run_readFile φ fs G file
    simp only [loadFiles, run_bind, he]
    cases h : stored fs G file with
    | none => simp [loaded, h, ih]
    | some obj => simp [loaded, h, ih]

theorem lookup_loaded (m : Objects V) (files : List FileName) (k : FileName) :
    (loaded fs G m files).lookup k =
      if k ∈ files then (stored fs G k).or (m.lookup k) else m.lookup k := by
  induction files generalizing m with
  | nil => rfl
  | cons file files ih =>
    have hstep : loaded fs G m (file :: files) =
        loaded fs G (match stored fs G file with | some obj => m.insert file obj | none => m) files := rfl
    rw [hstep, ih]
    by_cases hk : k = file
    · subst hk
      cases h : stored fs G k <;> simp
    · cases h : stored fs G file <;> simp [hk, Finmap.lookup_insert_of_ne]

theorem mem_names {d : Dir FileName} (hd : fs.dir = some d) (k : FileName) :
    k ∈ ((Fs.names d).filter fun info => !info.2).map Prod.fst ↔
      ∃ i, fs.entry k = some (.file i) := by
  have hlookup : ∀ e, ⟨k, e⟩ ∈ d.entries ↔ fs.entry k = some e := by
    intro e
    simp only [Fs.entry, entryOf, hd, Option.bind_some]
    exact AList.mem_lookup_iff.symm
  simp only [Fs.names, List.mem_map, List.mem_filter, Prod.exists, Sigma.exists]
  constructor
  · rintro ⟨n, b, ⟨⟨n', e, hmem, heq⟩, hb⟩, rfl⟩
    simp only [Prod.mk.injEq] at heq
    obtain ⟨rfl, rfl⟩ := heq
    cases e with
    | file i => exact ⟨i, (hlookup _).mp hmem⟩
    | subdir b => simp at hb
  · rintro ⟨i, hi⟩
    exact ⟨k, false, ⟨⟨k, .file i, (hlookup _).mpr hi, rfl⟩, rfl⟩, rfl⟩

theorem stored_of_not_file {k : FileName} (h : ¬ ∃ i, fs.entry k = some (.file i)) :
    stored fs G k = none := by
  have hc : fs.content k = none := by
    unfold Fs.content
    split
    · next i hi => exact absurd ⟨i, hi⟩ h
    · rfl
  simp [stored, hc]

def filled (m : Objects V) : Objects V :=
  match fs.dir with
  | some d => loaded fs G m (((Fs.names d).filter fun info => !info.2).map Prod.fst)
  | none => m

theorem lookup_filled (m : Objects V) (k : FileName) :
    (filled fs G m).lookup k = (stored fs G k).or (m.lookup k) := by
  cases hd : fs.dir with
  | none =>
    have hs : stored fs G k = none :=
      stored_of_not_file fs G (by simp [Fs.entry_of_missing hd])
    simp [filled, hd, hs]
  | some d =>
    simp only [filled, hd, lookup_loaded]
    split_ifs with h
    · rfl
    · simp [stored_of_not_file fs G (mt (mem_names fs hd k).mpr h)]

theorem stored_mkdirAll (k : FileName) : stored fs.mkdirAll G k = stored fs G k := by
  simp [stored]

/-- Whether `Init` gets to the listing. -/
def Faults.Lists : Prop := (fs.dir = none → φ.mkdir = false) ∧ φ.openDir = false

theorem run_init_listed (h : φ.Lists fs) (db : DB V) :
    run (faulty φ) (init G db) fs =
      (({ db with objectsMap := filled fs G db.objectsMap }, none), fs.mkdirAll) := by
  obtain ⟨hm, ho⟩ := h
  rw [init, run_bind, run_locationMissing]
  cases hd : fs.dir with
  | some d =>
    have hsame : fs.mkdirAll = fs := Fs.mkdirAll_of_some (by simp [hd])
    simp [run_bind, run_listDirFiles φ fs ho hd, run_loadFiles, filled, hd, hsame]
  | none =>
    have hmk : faulty φ .mkdirAll fs = (.ok (), fs.mkdirAll) := by
      simp [faulty, Faults.of, hm hd, respond, perform]
    obtain ⟨d, hd'⟩ := Option.isSome_iff_exists.mp (Fs.dir_isSome_mkdirAll fs)
    have hnone : ∀ k, k ∉ ((Fs.names d).filter fun info => !info.2).map Prod.fst := fun k hk => by
      obtain ⟨i, hi⟩ := (mem_names fs.mkdirAll hd' k).mp hk
      simp [Fs.entry_of_missing hd] at hi
    have hnil := List.eq_nil_iff_forall_not_mem.mpr hnone
    simp [run_call, hmk, run_bind, run_listDirFiles φ _ ho hd', hnil, loadFiles, filled, hd]

theorem run_init_failed (h : ¬ φ.Lists fs) (db : DB V) :
    ∃ e, run (faulty φ) (init G db) fs =
      ((db, some e), if fs.dir = none ∧ φ.mkdir = true then fs else fs.mkdirAll) := by
  refine ⟨.os .io, ?_⟩
  rw [init, run_bind, run_locationMissing]
  have hopen : ∀ gs : Fs FileName, φ.openDir = true →
      run (faulty φ) listDirFiles gs = (.error .io, gs) := by
    intro gs ho
    simp [listDirFiles, run_call, faulty, Faults.of, ho, respond, fail]
  cases hd : fs.dir with
  | some d =>
    have ho : φ.openDir = true := by simpa [Faults.Lists, hd] using h
    have hsame : fs.mkdirAll = fs := Fs.mkdirAll_of_some (by simp [hd])
    simp [run_bind, hopen fs ho, hsame]
  | none =>
    cases hm : φ.mkdir with
    | true =>
      have hmk : faulty φ .mkdirAll fs = (.error .io, fs) := by
        simp [faulty, Faults.of, hm, respond, fail]
      simp [run_call, hmk]
    | false =>
      have ho : φ.openDir = true := by simpa [Faults.Lists, hd, hm] using h
      have hmk : faulty φ .mkdirAll fs = (.ok (), fs.mkdirAll) := by
        simp [faulty, Faults.of, hm, respond, perform]
      simp [run_call, hmk, run_bind, hopen _ ho]

theorem run_delete_absent (db : DB V) (key : FileName)
    (h : db.objectsMap.lookup key = none ∨ fs.entry key = none) :
    run (faulty φ) (delete db key) fs = ((db, none), fs) := by
  cases hk : db.objectsMap.lookup key with
  | none => simp [delete, has, hk]
  | some v =>
    have he : fs.entry key = none := h.resolve_left (by simp [hk])
    simp [delete, has, hk, run_bind, run_fileExists_entry, he]

theorem run_delete_failed (db : DB V) {key : FileName} {v : V} {i : ℕ}
    (hk : db.objectsMap.lookup key = some v) (he : fs.entry key = some (.file i))
    (hφ : φ.remove = true) :
    run (faulty φ) (delete db key) fs = ((db, some (.os .io)), fs) := by
  simp [delete, has, hk, run_bind, run_fileExists_entry, he, run_call, faulty, Faults.of, hφ,
    respond, fail]

theorem run_delete_file (db : DB V) {key : FileName} {v : V} {i : ℕ}
    (hk : db.objectsMap.lookup key = some v) (he : fs.entry key = some (.file i))
    (hφ : φ.remove = false) :
    run (faulty φ) (delete db key) fs =
      (({ db with objectsMap := db.objectsMap.erase key }, none), fs.unlink key) := by
  simp [delete, has, hk, run_bind, run_fileExists_entry, he, run_call, faulty, Faults.of, hφ,
    respond, perform, Fs.remove_file he]

/-- No write of an `Encode` starting at `offset` fails. -/
def Faults.Writes (offset : ℕ) (bs : List Bytes) : Prop :=
  ∀ j < bs.length, φ.write (offset + offsetOf bs j) = none

theorem Faults.writes_cons {φ : Faults} {offset : ℕ} {b : Bytes} {bs : List Bytes} :
    φ.Writes offset (b :: bs) ↔ φ.write offset = none ∧ φ.Writes (offset + b.length) bs := by
  constructor
  · intro h
    refine ⟨by simpa [offsetOf_zero] using h 0 (by simp), fun j hj => ?_⟩
    simpa [offsetOf_succ, Nat.add_assoc] using h (j + 1) (by simpa using hj)
  · rintro ⟨h0, hs⟩ j hj
    cases j with
    | zero => simpa [offsetOf_zero] using h0
    | succ j => simpa [offsetOf_succ, Nat.add_assoc] using hs j (by simpa using hj)

theorem run_writeAll (bs : List Bytes) (f : OpenFile) (hlen : (fs.data f.inode).length = f.offset)
    (hφ : φ.Writes f.offset bs) :
    run (faulty φ) (writeAll f bs) fs =
      (none, fs.setData f.inode (fs.data f.inode ++ bs.flatten)) := by
  induction bs generalizing f fs with
  | nil => simp [writeAll, Fs.setData_self]
  | cons b bs ih =>
    obtain ⟨h0, hs⟩ := Faults.writes_cons.mp hφ
    have hwrite : faulty φ (.write f b) fs =
        (.ok ⟨f.inode, f.offset + b.length⟩, fs.setData f.inode (fs.data f.inode ++ b)) := by
      simp [faulty, Faults.of, h0, respond, perform, Fs.write_end hlen]
    rw [writeAll, op_bind, run_call, hwrite]
    have hrec := ih (fs.setData f.inode (fs.data f.inode ++ b)) ⟨f.inode, f.offset + b.length⟩
      (by simp [hlen]) hs
    simpa [Fs.setData_setData] using hrec

theorem run_writeAll_failed (bs : List Bytes) (f : OpenFile)
    (hlen : (fs.data f.inode).length = f.offset) (hφ : ¬ φ.Writes f.offset bs) :
    ∃ done b todo n, bs = done ++ b :: todo ∧ run (faulty φ) (writeAll f bs) fs =
      (some (.os .io), fs.setData f.inode (fs.data f.inode ++ (done.flatten ++ b.dropLast.take n))) := by
  induction bs generalizing f fs with
  | nil => exact absurd (fun j hj => absurd hj (Nat.not_lt_zero j)) hφ
  | cons b bs ih =>
    cases h0 : φ.write f.offset with
    | some n =>
      refine ⟨[], b, bs, n, rfl, ?_⟩
      have hwrite : faulty φ (.write f b) fs = (.error .io,
          fs.setData f.inode (fs.data f.inode ++ b.dropLast.take n)) := by
        simp [faulty, Faults.of, h0, respond, fail, Fs.write_end hlen]
      rw [writeAll, op_bind, run_call, hwrite]
      rfl
    | none =>
      have hwrite : faulty φ (.write f b) fs =
          (.ok ⟨f.inode, f.offset + b.length⟩, fs.setData f.inode (fs.data f.inode ++ b)) := by
        simp [faulty, Faults.of, h0, respond, perform, Fs.write_end hlen]
      rw [writeAll, op_bind, run_call, hwrite]
      obtain ⟨done, b', todo, n, rfl, hrun⟩ :=
        ih (fs.setData f.inode (fs.data f.inode ++ b)) ⟨f.inode, f.offset + b.length⟩
          (by simp [hlen]) fun hs => hφ (Faults.writes_cons.mpr ⟨h0, hs⟩)
      exact ⟨b :: done, b', todo, n, rfl, by simpa [Fs.setData_setData] using hrun⟩

theorem run_put_exists (db : DB V) {key : FileName} (v : V) {e : Entry}
    (he : fs.entry key = some e) :
    run (faulty φ) (put G db key v) fs = ((db, some (.text "file already exists")), fs) := by
  simp [put, run_bind, run_fileExists_entry, he]

theorem run_put_uncreated (db : DB V) {key : FileName} (v : V) (he : fs.entry key = none)
    (hφ : fs.dir = none ∨ φ.create = true) :
    ∃ e, run (faulty φ) (put G db key v) fs = ((db, some e), fs) := by
  cases hc : φ.create with
  | true =>
    refine ⟨.os .io, ?_⟩
    simp [put, run_bind, run_fileExists_entry, he, run_call, faulty, Faults.of, hc, respond, fail]
  | false =>
    have hd : fs.dir = none := by simpa [hc] using hφ
    refine ⟨.os .notExist, ?_⟩
    simp [put, run_bind, run_fileExists_entry, he, run_call, faulty, Faults.of, hc, respond, perform,
      Fs.create_missing hd]

/-- The directory after a key was linked and `b` written to it. -/
def withFile (fs : Fs FileName) (d : Dir FileName) (hd : fs.dir = some d) (key : FileName)
    (b : Bytes) : Fs FileName :=
  (fs.link d hd key).setData fs.fresh b

theorem data_link_fresh (d : Dir FileName) (hd : fs.dir = some d) (key : FileName) :
    (fs.link d hd key).data fs.fresh = [] := by
  simp [Fs.link]

theorem faulty_create {key : FileName} (he : fs.entry key = none) {d : Dir FileName}
    (hd : fs.dir = some d) (hc : φ.create = false) :
    faulty φ (.create key) fs = (.ok ⟨fs.fresh, 0⟩, fs.link d hd key) := by
  simp only [faulty, Faults.of, hc, respond, perform, Fs.create_absent he hd]
  rfl

theorem run_put_done (db : DB V) {key : FileName} (v : V) (he : fs.entry key = none)
    {d : Dir FileName} (hd : fs.dir = some d) (hc : φ.create = false)
    (hw : φ.Writes 0 (G.messages v)) :
    run (faulty φ) (put G db key v) fs =
      (({ db with objectsMap := db.objectsMap.insert key v }, none),
        withFile fs d hd key (G.stream v)) := by
  have hcreate := faulty_create φ fs he hd hc
  have hwrite := run_writeAll φ (fs.link d hd key) (G.messages v) ⟨fs.fresh, 0⟩
    (by simp [data_link_fresh]) hw
  rw [data_link_fresh, List.nil_append, G.messages_flatten] at hwrite
  simp only [put, run_bind, run_fileExists_entry, he, Option.isSome_none, op_bind, run_call, hcreate,
    encode, hwrite]
  rfl

theorem run_put_failed (db : DB V) {key : FileName} (v : V) (he : fs.entry key = none)
    {d : Dir FileName} (hd : fs.dir = some d) (hc : φ.create = false)
    (hw : ¬ φ.Writes 0 (G.messages v)) :
    ∃ done b todo n, G.messages v = done ++ b :: todo ∧ run (faulty φ) (put G db key v) fs =
      ((db, some (.os .io)), withFile fs d hd key (done.flatten ++ b.dropLast.take n)) := by
  have hcreate := faulty_create φ fs he hd hc
  obtain ⟨done, b, todo, n, hsplit, hwrite⟩ := run_writeAll_failed φ (fs.link d hd key)
    (G.messages v) ⟨fs.fresh, 0⟩ (by simp [data_link_fresh]) hw
  rw [data_link_fresh, List.nil_append] at hwrite
  refine ⟨done, b, todo, n, hsplit, ?_⟩
  simp only [put, run_bind, run_fileExists_entry, he, Option.isSome_none, op_bind, run_call, hcreate,
    encode, hwrite]
  rfl

theorem entry_withFile {d : Dir FileName} (hd : fs.dir = some d) (key : FileName) (b : Bytes)
    (k : FileName) :
    (withFile fs d hd key b).entry k = if k = key then some (.file fs.fresh) else fs.entry k :=
  Fs.entry_link fs d hd key k

theorem stored_withFile {d : Dir FileName} (hd : fs.dir = some d) (key : FileName) (b : Bytes)
    (k : FileName) :
    stored (withFile fs d hd key b) G k = if k = key then G.decode b else stored fs G k := by
  have hlinked : (fs.link d hd key).entry key = some (.file fs.fresh) := by
    rw [Fs.entry_link, if_pos rfl]
  simp only [stored, withFile, Fs.content_setData hlinked, Fs.content_link]
  split_ifs <;> rfl

theorem stored_unlink (key k : FileName) :
    stored (fs.unlink key) G k = if k = key then none else stored fs G k := by
  simp only [stored, Fs.content_unlink]
  split_ifs <;> rfl

/-- The map of a handle that is opened now. -/
def reopened (name : String) : Objects V := (run perform (init G (newDB name)) fs).1.1.objectsMap

theorem lookup_reopened (name : String) (k : FileName) :
    (reopened fs G name).lookup k = stored fs G k := by
  have hrun := run_init_listed Faults.clear fs G ⟨fun _ => rfl, rfl⟩ (newDB name)
  rw [faulty_clear] at hrun
  rw [reopened, hrun, lookup_filled]
  exact Option.or_none

end NexFi.StoreDB
