import Mathlib.Data.List.AList
import NexFi.PosixContent

/-!
# One directory, its inodes and the operations on it

A directory maps names to entries; a file entry points at an inode and the
content lives with the inode. Removing a name leaves the inode to whoever still
holds it open. The invariant fields say that every linked inode was allocated
and that no two names share one, so a write through one name is invisible under
every other.
-/

namespace NexFi.Posix

inductive Errno
  | notExist
  | isDir
  | notEmpty
  | io
  deriving DecidableEq

inductive Entry
  | file (inode : ℕ)
  | subdir (empty : Bool)
  deriving DecidableEq

variable {ν : Type} [DecidableEq ν]

abbrev Dir (ν : Type) := AList (fun _ : ν => Entry)

def entryOf (dir : Option (Dir ν)) (name : ν) : Option Entry :=
  dir.bind fun d => d.lookup name

theorem entryOf_erase (dir : Option (Dir ν)) (name n : ν) :
    entryOf (dir.map fun d => d.erase name) n = if n = name then none else entryOf dir n := by
  cases dir with
  | none => simp [entryOf]
  | some d =>
    split_ifs with h
    · subst h
      exact AList.lookup_erase n d
    · exact AList.lookup_erase_ne h

theorem entryOf_insert (d : Dir ν) (name n : ν) (e : Entry) :
    entryOf (some (d.insert name e)) n = if n = name then some e else entryOf (some d) n := by
  split_ifs with h
  · subst h
    exact AList.lookup_insert d
  · exact AList.lookup_insert_ne h

structure Fs (ν : Type) [DecidableEq ν] where
  dir : Option (Dir ν)
  data : ℕ → Bytes
  fresh : ℕ
  allocated : ∀ n i, entryOf dir n = some (.file i) → i < fresh
  unshared : ∀ m n i, entryOf dir m = some (.file i) → entryOf dir n = some (.file i) → m = n

structure OpenFile where
  inode : ℕ
  offset : ℕ
  deriving DecidableEq

namespace Fs

def entry (fs : Fs ν) (name : ν) : Option Entry := entryOf fs.dir name

def empty : Fs ν where
  dir := some ∅
  data := fun _ => []
  fresh := 0
  allocated := fun n i h => by simp [entryOf] at h
  unshared := fun m n i h => by simp [entryOf] at h

/-- What a reader of `name` finds: the content of the linked inode. -/
def content (fs : Fs ν) (name : ν) : Option Bytes :=
  match fs.entry name with
  | some (.file i) => some (fs.data i)
  | _ => none

def setData (fs : Fs ν) (i : ℕ) (b : Bytes) : Fs ν :=
  { fs with data := Function.update fs.data i b }

def mkdirAll (fs : Fs ν) : Fs ν :=
  match fs.dir with
  | some _ => fs
  | none =>
    { fs with
      dir := some ∅
      allocated := fun n i h => by simp [entryOf] at h
      unshared := fun m n i h => by simp [entryOf] at h }

def unlink (fs : Fs ν) (name : ν) : Fs ν :=
  { fs with
    dir := fs.dir.map fun d => d.erase name
    allocated := by
      intro n i h
      rw [entryOf_erase] at h
      split_ifs at h with hn
      exact fs.allocated n i h
    unshared := by
      intro m n i hm hn
      rw [entryOf_erase] at hm hn
      split_ifs at hm hn
      exact fs.unshared m n i hm hn }

/-- A new empty file under `name`, on an inode never used before. -/
def link (fs : Fs ν) (d : Dir ν) (hd : fs.dir = some d) (name : ν) : Fs ν where
  dir := some (d.insert name (.file fs.fresh))
  data := Function.update fs.data fs.fresh []
  fresh := fs.fresh + 1
  allocated := by
    intro n i h
    rw [entryOf_insert] at h
    split_ifs at h with hn
    · simp only [Option.some.injEq, Entry.file.injEq] at h
      omega
    · exact Nat.lt_succ_of_lt (fs.allocated n i (hd ▸ h))
  unshared := by
    intro m n i hm hn
    rw [entryOf_insert] at hm hn
    have hnew : ∀ k, entryOf (some d) k ≠ some (.file fs.fresh) := fun k hk =>
      lt_irrefl _ (fs.allocated k _ (hd ▸ hk))
    split_ifs at hm hn with h₁ h₂ h₂
    · rw [h₁, h₂]
    · simp only [Option.some.injEq, Entry.file.injEq] at hm
      exact absurd (hm ▸ hn) (hnew n)
    · simp only [Option.some.injEq, Entry.file.injEq] at hn
      exact absurd (hn ▸ hm) (hnew m)
    · exact fs.unshared m n i (hd ▸ hm) (hd ▸ hn)

def names (d : Dir ν) : List (ν × Bool) :=
  d.entries.map fun e => (e.1, match e.2 with | .file _ => false | .subdir _ => true)

def remove (fs : Fs ν) (name : ν) : Except Errno Unit × Fs ν :=
  match fs.entry name with
  | none => (.error .notExist, fs)
  | some (.subdir false) => (.error .notEmpty, fs)
  | some _ => (.ok (), fs.unlink name)

/-- Open for writing from the start: an existing file is truncated in place and
keeps its inode, an absent one is linked to a fresh inode. -/
def create (fs : Fs ν) (name : ν) : Except Errno OpenFile × Fs ν :=
  match fs.entry name with
  | some (.file i) => (.ok ⟨i, 0⟩, fs.setData i [])
  | some (.subdir _) => (.error .isDir, fs)
  | none =>
    match hd : fs.dir with
    | none => (.error .notExist, fs)
    | some d => (.ok ⟨fs.fresh, 0⟩, fs.link d hd name)

def write (fs : Fs ν) (f : OpenFile) (b : Bytes) : OpenFile × Fs ν :=
  (⟨f.inode, f.offset + b.length⟩, fs.setData f.inode (writeAt (fs.data f.inode) f.offset b))

@[simp] theorem entry_setData (fs : Fs ν) (i : ℕ) (b : Bytes) (n : ν) :
    (fs.setData i b).entry n = fs.entry n := rfl

@[simp] theorem dir_setData (fs : Fs ν) (i : ℕ) (b : Bytes) : (fs.setData i b).dir = fs.dir := rfl

@[simp] theorem data_setData (fs : Fs ν) (i : ℕ) (b : Bytes) : (fs.setData i b).data i = b := by
  simp [setData]

theorem data_setData_ne (fs : Fs ν) {i j : ℕ} (h : j ≠ i) (b : Bytes) :
    (fs.setData i b).data j = fs.data j := by
  simp [setData, h]

theorem setData_setData (fs : Fs ν) (i : ℕ) (b c : Bytes) :
    (fs.setData i b).setData i c = fs.setData i c := by
  simp [setData]

theorem setData_self (fs : Fs ν) (i : ℕ) : fs.setData i (fs.data i) = fs := by
  simp [setData]

@[simp] theorem dir_isSome_unlink (fs : Fs ν) (name : ν) :
    (fs.unlink name).dir.isSome = fs.dir.isSome := Option.isSome_map

theorem entry_unlink (fs : Fs ν) (name n : ν) :
    (fs.unlink name).entry n = if n = name then none else fs.entry n :=
  entryOf_erase fs.dir name n

theorem entry_link (fs : Fs ν) (d : Dir ν) (hd : fs.dir = some d) (name n : ν) :
    (fs.link d hd name).entry n = if n = name then some (.file fs.fresh) else fs.entry n := by
  simp only [entry, link, hd]
  exact entryOf_insert d name n _

theorem entry_of_missing {fs : Fs ν} (h : fs.dir = none) (n : ν) : fs.entry n = none := by
  simp [entry, entryOf, h]

theorem content_of_file {fs : Fs ν} {n : ν} {i : ℕ} (h : fs.entry n = some (.file i)) :
    fs.content n = some (fs.data i) := by
  simp [content, h]

theorem content_of_absent {fs : Fs ν} {n : ν} (h : fs.entry n = none) : fs.content n = none := by
  simp [content, h]

theorem content_congr {fs gs : Fs ν} {n : ν} (he : gs.entry n = fs.entry n)
    (hd : ∀ i, fs.entry n = some (.file i) → gs.data i = fs.data i) :
    gs.content n = fs.content n := by
  unfold content
  rw [he]
  split
  · next i hi => rw [hd i hi]
  · rfl

theorem content_setData {fs : Fs ν} {name : ν} {i : ℕ} (h : fs.entry name = some (.file i))
    (b : Bytes) (n : ν) :
    (fs.setData i b).content n = if n = name then some b else fs.content n := by
  split_ifs with hn
  · subst hn
    have hc : (fs.setData i b).content n = some ((fs.setData i b).data i) := content_of_file h
    rw [hc, data_setData]
  · refine content_congr rfl fun j hj => data_setData_ne fs ?_ b
    rintro rfl
    exact hn (fs.unshared n name j hj h)

theorem content_unlink (fs : Fs ν) (name n : ν) :
    (fs.unlink name).content n = if n = name then none else fs.content n := by
  split_ifs with hn
  · exact content_of_absent (by rw [entry_unlink, if_pos hn])
  · exact content_congr (by rw [entry_unlink, if_neg hn]) fun i _ => rfl

theorem content_link (fs : Fs ν) (d : Dir ν) (hd : fs.dir = some d) (name n : ν) :
    (fs.link d hd name).content n = if n = name then some [] else fs.content n := by
  split_ifs with hn
  · rw [content_of_file (i := fs.fresh) (by rw [entry_link, if_pos hn])]
    simp [link]
  · refine content_congr (by rw [entry_link, if_neg hn]) fun i hi => ?_
    simp [link, ne_of_lt (fs.allocated n i hi)]

theorem mkdirAll_of_some {fs : Fs ν} (h : fs.dir.isSome) : fs.mkdirAll = fs := by
  unfold mkdirAll
  split
  · rfl
  · next hd => simp [hd] at h

@[simp] theorem dir_isSome_mkdirAll (fs : Fs ν) : fs.mkdirAll.dir.isSome := by
  unfold mkdirAll
  split
  · next d hd => simp [hd]
  · rfl

@[simp] theorem entry_mkdirAll (fs : Fs ν) (n : ν) : fs.mkdirAll.entry n = fs.entry n := by
  unfold mkdirAll
  split
  · rfl
  · next hd => simp [entry, entryOf, hd]

@[simp] theorem data_mkdirAll (fs : Fs ν) : fs.mkdirAll.data = fs.data := by
  unfold mkdirAll
  split <;> rfl

@[simp] theorem fresh_mkdirAll (fs : Fs ν) : fs.mkdirAll.fresh = fs.fresh := by
  unfold mkdirAll
  split <;> rfl

@[simp] theorem content_mkdirAll (fs : Fs ν) (n : ν) : fs.mkdirAll.content n = fs.content n :=
  content_congr (entry_mkdirAll fs n) fun i _ => by rw [data_mkdirAll]

theorem remove_file {fs : Fs ν} {name : ν} {i : ℕ} (h : fs.entry name = some (.file i)) :
    fs.remove name = (.ok (), fs.unlink name) := by
  simp [remove, h]

theorem remove_absent {fs : Fs ν} {name : ν} (h : fs.entry name = none) :
    fs.remove name = (.error .notExist, fs) := by
  simp [remove, h]

theorem create_file {fs : Fs ν} {name : ν} {i : ℕ} (h : fs.entry name = some (.file i)) :
    fs.create name = (.ok ⟨i, 0⟩, fs.setData i []) := by
  simp [create, h]

theorem create_absent {fs : Fs ν} {name : ν} {d : Dir ν} (h : fs.entry name = none)
    (hd : fs.dir = some d) :
    fs.create name = (.ok ⟨fs.fresh, 0⟩, fs.link d hd name) := by
  unfold create
  rw [h]
  dsimp only
  split
  · next hd' => simp [hd] at hd'
  · next d' hd' =>
    obtain rfl : d' = d := by simpa [hd] using hd'.symm
    rfl

theorem create_missing {fs : Fs ν} {name : ν} (hd : fs.dir = none) :
    fs.create name = (.error .notExist, fs) := by
  unfold create
  rw [entry_of_missing hd]
  dsimp only
  split
  · rfl
  · next d' hd' => simp [hd] at hd'

theorem write_end {fs : Fs ν} {f : OpenFile} (h : (fs.data f.inode).length = f.offset) (b : Bytes) :
    fs.write f b = (⟨f.inode, f.offset + b.length⟩, fs.setData f.inode (fs.data f.inode ++ b)) := by
  rw [write, ← h, writeAt_end]

end Fs
end NexFi.Posix
