import NexFi.StorePhases
import NexFi.StoreRequests

/-!
# Transitions that write nothing

All phases but the create and the writes only look, or remove the key. What such
a transition preserves is said once: a request that will find the key goes on
finding it while it is linked and decodes, one that will not find it ends up
creating the file while the key is absent.
-/

namespace NexFi.StoreHandlers
open Posix Prog StoreDB GoJson

variable {V : Type}

namespace Phase

def Looking : Phase V → Prop
  | .statExists => True
  | .statIsDir => True
  | .mkdir => True
  | .list => True
  | _ => False

/-- The request will find the key, if it stays where it is. -/
def Early (key : FileName) : Phase V → Prop
  | .load db file files => (db.objectsMap.lookup key).isSome ∨ key ∈ file :: files
  | .statPut => False
  | .create => False
  | .write _ _ _ => False
  | .finished _ => False
  | _ => True

/-- The request has not found the key so far. -/
def Unread (key : FileName) : Phase V → Prop
  | .statExists => True
  | .statIsDir => True
  | .mkdir => True
  | .list => True
  | .load db _ _ => db.objectsMap.lookup key = none
  | _ => False

/-- The request creates the file if the key stays absent. -/
def Placing : Phase V → Prop
  | .statPut => True
  | .create => True
  | _ => False

/-- Only saving requests get here. -/
def Saving : Phase V → Prop
  | .statDelete => True
  | .remove => True
  | .statPut => True
  | .create => True
  | .write _ _ _ => True
  | _ => False

def Finished : Phase V → Prop
  | .finished _ => True
  | _ => False

def Writing : Phase V → Prop
  | .write _ _ _ => True
  | _ => False

end Phase

namespace Endpoint
variable (ep : Endpoint V) (r : Request)

structure Passes (p p' : Phase V) (fs fs' : Fs FileName) : Prop where
  started : ¬ p.Finished ∧ ¬ p.Writing
  still : ¬ p'.Writing
  data : fs'.data = fs.data
  fresh : fs'.fresh = fs.fresh
  dir : fs.dir.isSome → fs'.dir.isSome
  ready : fs'.dir.isSome ∨ p' = .statExists ∨ p' = .mkdir
  entry : fs'.entry ep.key = fs.entry ep.key ∨ (fs'.entry ep.key = none ∧ p' = .statPut)
  saving : p'.Saving → ep.saves r.method = true
  early : ep.saves r.method = true → fs'.entry ep.key = fs.entry ep.key →
    (ep.current fs).isSome → p.Early ep.key → p'.Early ep.key
  placing : fs.entry ep.key = none → p.Placing → p'.Placing
  unread : ep.saves r.method = true → fs.entry ep.key = none →
    p.Unread ep.key → p'.Unread ep.key ∨ p'.Placing

theorem loading_still (db : DB V) (files : List FileName) : ¬ (ep.loading r db files).Writing := by
  cases files with
  | cons file files => exact id
  | nil =>
    unfold loading afterInit
    split_ifs <;> exact id

theorem loading_saving (db : DB V) (files : List FileName) (h : (ep.loading r db files).Saving) :
    ep.saves r.method = true := by
  cases files with
  | cons file files => exact h.elim
  | nil =>
    unfold loading afterInit at h
    split_ifs at h with hsaves
    · exact hsaves
    · exact hsaves
    · exact h.elim

theorem loading_early {db : DB V} {files : List FileName} (hsaves : ep.saves r.method = true)
    (h : (db.objectsMap.lookup ep.key).isSome ∨ ep.key ∈ files) :
    (ep.loading r db files).Early ep.key := by
  cases files with
  | cons file files => exact h
  | nil =>
    have hhas : has db ep.key = true := h.resolve_right (by simp)
    simp [loading, afterInit, hsaves, hhas, Phase.Early]

theorem loading_unread {db : DB V} (files : List FileName) (hsaves : ep.saves r.method = true)
    (h : db.objectsMap.lookup ep.key = none) :
    (ep.loading r db files).Unread ep.key ∨ (ep.loading r db files).Placing := by
  cases files with
  | cons file files => exact Or.inl h
  | nil =>
    have hhas : has db ep.key = false := by simp [has, h]
    exact Or.inr (by simp [loading, afterInit, hsaves, hhas, Phase.Placing])

/-- What reading one more file does to the object under the key. -/
theorem lookup_loadedFile (db : DB V) (file : FileName) (fs : Fs FileName) :
    (ep.loadedFile db file (perform (.readFile file) fs).1).objectsMap.lookup ep.key =
      if file = ep.key then (ep.current fs).or (db.objectsMap.lookup ep.key)
      else db.objectsMap.lookup ep.key := by
  have hread : ep.loadedFile db file (perform (.readFile file) fs).1 =
      (stored fs ep.gob file).elim db fun obj =>
        { db with objectsMap := db.objectsMap.insert file obj } := by
    cases he : fs.entry file with
    | none => simp [perform, he, loadedFile, stored, Fs.content]
    | some e =>
      cases e with
      | subdir b => simp [perform, he, loadedFile, stored, Fs.content]
      | file n => cases hd : ep.gob.decode (fs.data n) <;>
          simp [perform, he, loadedFile, stored, Fs.content, hd]
  rw [hread]
  split_ifs with h
  · subst h
    cases hs : stored fs ep.gob ep.key <;> simp [current, hs]
  · cases hs : stored fs ep.gob file with
    | none => rfl
    | some obj => simp [Finmap.lookup_insert_of_ne _ (Ne.symm h)]

theorem listed_names {fs : Fs FileName} {d : Dir FileName} (hd : fs.dir = some d) :
    ep.listed r (perform .readDir fs).1 = ep.loading r (newDB ep.database)
      (((Fs.names d).filter fun info => !info.2).map Prod.fst) := by
  simp [perform, hd, listed]

theorem stat_isOk (fs : Fs FileName) (key : FileName) :
    (perform (.stat (.entry key)) fs).1.isOk = (fs.entry key).isSome := by
  cases he : fs.entry key with
  | none => simp [perform, he, Except.isOk, Except.toBool]
  | some e => cases e <;> simp [perform, he, Except.isOk, Except.toBool]

theorem stat_location_isOk (fs : Fs FileName) :
    (perform (.stat .location) fs).1.isOk = fs.dir.isSome := by
  cases hd : fs.dir <;> simp [perform, hd, Except.isOk, Except.toBool]

theorem isDirSeen_dir {fs : Fs FileName} (h : fs.dir.isSome) :
    isDirSeen (V := V) (perform (.stat .location) fs).1 = .list := by
  obtain ⟨d, hd⟩ := Option.isSome_iff_exists.mp h
  simp only [perform, hd]
  rfl

section Same
variable {p p' : Phase V} {fs : Fs FileName}

theorem passes_looking {fs' : Fs FileName} (hp : p.Looking) (hp' : p'.Looking)
    (hentry : fs'.entry ep.key = fs.entry ep.key) (hdata : fs'.data = fs.data)
    (hfresh : fs'.fresh = fs.fresh) (hdir : fs.dir.isSome → fs'.dir.isSome)
    (hready : fs'.dir.isSome ∨ p' = .statExists ∨ p' = .mkdir) : ep.Passes r p p' fs fs' where
  started := by cases p <;> first | exact hp.elim | exact ⟨id, id⟩
  still := by cases p' <;> first | exact hp'.elim | exact id
  data := hdata
  fresh := hfresh
  dir := hdir
  ready := hready
  entry := Or.inl hentry
  saving h := by cases p' <;> first | exact hp'.elim | exact h.elim
  early _ _ _ _ := by cases p' <;> first | exact hp'.elim | trivial
  placing _ h := by cases p <;> first | exact hp.elim | exact h.elim
  unread _ _ _ := by cases p' <;> first | exact hp'.elim | exact Or.inl trivial

/-- From the listing or a read to what comes after it. -/
theorem passes_loading {db : DB V} {files : List FileName}
    (hstarted : ¬ p.Finished ∧ ¬ p.Writing) (hplacing : ¬ p.Placing) (hdir : fs.dir.isSome)
    (hearly : (ep.current fs).isSome → p.Early ep.key →
      (db.objectsMap.lookup ep.key).isSome ∨ ep.key ∈ files)
    (hunread : fs.entry ep.key = none → p.Unread ep.key → db.objectsMap.lookup ep.key = none) :
    ep.Passes r p (ep.loading r db files) fs fs where
  started := hstarted
  still := ep.loading_still r db files
  data := rfl
  fresh := rfl
  dir := id
  ready := Or.inl hdir
  entry := Or.inl rfl
  saving := ep.loading_saving r db files
  early hsaves _ hcur hp := ep.loading_early r hsaves (hearly hcur hp)
  placing _ h := absurd h hplacing
  unread hsaves habsent hp := ep.loading_unread r files hsaves (hunread habsent hp)

/-- Between the saving phases only what holds for an absent key matters. -/
theorem passes_saving (hstarted : ¬ p.Finished ∧ ¬ p.Writing) (hstill : ¬ p'.Writing)
    (hdir : fs.dir.isSome) (hsaves : ep.saves r.method = true)
    (hearly : fs.entry ep.key ≠ none → p.Early ep.key → p'.Early ep.key)
    (hplacing : fs.entry ep.key = none → p.Placing → p'.Placing) (hread : ¬ p.Unread ep.key) :
    ep.Passes r p p' fs fs where
  started := hstarted
  still := hstill
  data := rfl
  fresh := rfl
  dir := id
  ready := Or.inl hdir
  entry := Or.inl rfl
  saving _ := hsaves
  early _ _ hcur := hearly fun he => by simp [ep.current_of_absent he] at hcur
  placing := hplacing
  unread _ _ h := absurd h hread

theorem passes_list (hdir : fs.dir.isSome) :
    ep.Passes r .list (ep.listed r (perform .readDir fs).1) fs fs := by
  obtain ⟨d, hd⟩ := Option.isSome_iff_exists.mp hdir
  rw [ep.listed_names r hd]
  refine ep.passes_loading r ⟨id, id⟩ id hdir (fun hcur _ => Or.inr ?_) fun _ _ => rfl
  obtain ⟨v, hv⟩ := Option.isSome_iff_exists.mp hcur
  exact (mem_names fs hd ep.key).mpr (ep.file_of_current hv)

theorem passes_load (hdir : fs.dir.isSome) (db : DB V) (file : FileName) (files : List FileName) :
    ep.Passes r (.load db file files)
      (ep.loading r (ep.loadedFile db file (perform (.readFile file) fs).1) files) fs fs := by
  refine ep.passes_loading r ⟨id, id⟩ id hdir (fun hcur hearly => ?_) fun habsent hunread => ?_
  · rw [lookup_loadedFile]
    split_ifs with hkey
    · exact Or.inl (by simp [hcur])
    · rcases hearly with hfound | hmem
      · exact Or.inl hfound
      · exact Or.inr ((List.mem_cons.mp hmem).resolve_left (Ne.symm hkey))
  · rw [lookup_loadedFile, ep.current_of_absent habsent]
    split_ifs
    · exact hunread
    · exact hunread

theorem passes_remove (hdir : fs.dir.isSome) (hsaves : ep.saves r.method = true)
    (hfile : ∀ e, fs.entry ep.key = some e → ∃ n, e = .file n) :
    ep.Passes r .remove (removed (perform (.remove ep.key) fs).1) fs
      (perform (.remove ep.key) fs).2 := by
  cases he : fs.entry ep.key with
  | none =>
    simp only [perform, Fs.remove_absent he]
    exact ep.passes_saving r ⟨id, id⟩ id hdir hsaves (fun h => absurd he h) (fun _ h => h.elim) id
  | some e =>
    obtain ⟨n, rfl⟩ := hfile e he
    have hgone : (fs.unlink ep.key).entry ep.key = none := by
      rw [Fs.entry_unlink, if_pos rfl]
    simp only [perform, Fs.remove_file he]
    exact
      { started := ⟨id, id⟩
        still := id
        data := rfl
        fresh := rfl
        dir := fun h => (Fs.dir_isSome_unlink fs ep.key).trans h
        ready := Or.inl ((Fs.dir_isSome_unlink fs ep.key).trans hdir)
        entry := Or.inr ⟨hgone, rfl⟩
        saving := fun _ => hsaves
        early := fun _ hsame _ _ => by simp [hgone, he] at hsame
        placing := fun _ _ => trivial
        unread := fun _ _ h => h.elim }

end Same

theorem passes {p : Phase V} {c : Call FileName} {next : c.Reply → Phase V}
    (hmove : ep.move r p = .call c next) (hcreate : p ≠ .create) (hwrite : ¬ p.Writing)
    {fs : Fs FileName} (hready : fs.dir.isSome ∨ p = .statExists ∨ p = .mkdir)
    (hsaving : p.Saving → ep.saves r.method = true)
    (hfile : ∀ e, fs.entry ep.key = some e → ∃ n, e = .file n) :
    ep.Passes r p (next (perform c fs).1) fs (perform c fs).2 := by
  cases p with
  | create => exact absurd rfl hcreate
  | write file b bs => exact absurd trivial hwrite
  | finished reply => cases hmove
  | statExists =>
    cases hmove
    dsimp only
    rw [stat_location_isOk]
    cases hd : fs.dir with
    | none => exact ep.passes_looking r trivial trivial rfl rfl rfl id (Or.inr (Or.inr rfl))
    | some d => exact ep.passes_looking r trivial trivial rfl rfl rfl id (Or.inl (by simp [perform, hd]))
  | statIsDir =>
    cases hmove
    have hdir := hready.resolve_right (by simp)
    rw [isDirSeen_dir hdir]
    exact ep.passes_looking r trivial trivial rfl rfl rfl id (Or.inl hdir)
  | mkdir =>
    cases hmove
    exact ep.passes_looking r trivial trivial (Fs.entry_mkdirAll fs _) (Fs.data_mkdirAll fs)
      (Fs.fresh_mkdirAll fs) (fun _ => Fs.dir_isSome_mkdirAll fs) (Or.inl (Fs.dir_isSome_mkdirAll fs))
  | list =>
    cases hmove
    exact ep.passes_list r (hready.resolve_right (by simp))
  | load db file files =>
    cases hmove
    exact ep.passes_load r (hready.resolve_right (by simp)) db file files
  | statDelete =>
    cases hmove
    have hdir := hready.resolve_right (by simp)
    dsimp only
    rw [stat_isOk]
    cases he : fs.entry ep.key with
    | none =>
      exact ep.passes_saving r ⟨id, id⟩ id hdir (hsaving trivial) (fun h => absurd he h)
        (fun _ h => h.elim) id
    | some e =>
      exact ep.passes_saving r ⟨id, id⟩ id hdir (hsaving trivial) (fun _ _ => trivial)
        (fun _ h => h.elim) id
  | remove =>
    cases hmove
    exact ep.passes_remove r (hready.resolve_right (by simp)) (hsaving trivial) hfile
  | statPut =>
    cases hmove
    have hdir := hready.resolve_right (by simp)
    dsimp only
    rw [stat_isOk]
    cases he : fs.entry ep.key with
    | none =>
      exact ep.passes_saving r ⟨id, id⟩ id hdir (hsaving trivial) (fun h => absurd he h)
        (fun _ _ => trivial) id
    | some e =>
      exact ep.passes_saving r ⟨id, id⟩ id hdir (hsaving trivial) (fun _ h => h.elim)
        (fun h => by simp [he] at h) id

end Endpoint
end NexFi.StoreHandlers
