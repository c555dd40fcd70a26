import NexFi.PosixSchedule
import NexFi.StoreHandlers

/-!
# The phases of a request

A request is in the phase of the call it makes next. Until the directory is read
it carries the database that is being filled; what remains of it afterwards is
one bit, whether the key was found.
-/

namespace NexFi.StoreHandlers
open Posix Prog StoreDB GoJson

inductive Phase (V : Type)
  | statExists
  | statIsDir
  | mkdir
  | list
  | load (db : DB V) (file : FileName) (files : List FileName)
  | statDelete
  | remove
  | statPut
  | create
  | write (file : OpenFile) (b : Bytes) (bs : List Bytes)
  | finished (reply : Reply V)

namespace Endpoint
variable {V : Type} (ep : Endpoint V) (r : Request)

def afterInit (db : DB V) : Phase V :=
  if ep.saves r.method then if has db ep.key then .statDelete else .statPut
  else .finished (ep.load db)

def loading (db : DB V) : List FileName → Phase V
  | [] => ep.afterInit r db
  | file :: files => .load db file files

def loadedFile (db : DB V) (file : FileName) : Except Errno Bytes → DB V
  | .error _ => db
  | .ok content =>
    match ep.gob.decode content with
    | some obj => { db with objectsMap := db.objectsMap.insert file obj }
    | none => db

def writing (file : OpenFile) : List Bytes → Phase V
  | [] => .finished (.status "ok")
  | b :: bs => .write file b bs

def listed : Except Errno (List (FileName × Bool)) → Phase V
  | .error _ => ep.afterInit r (newDB ep.database)
  | .ok infos => ep.loading r (newDB ep.database) ((infos.filter fun info => !info.2).map Prod.fst)

def isDirSeen : Except Errno Bool → Phase V
  | .error _ => .mkdir
  | .ok isDir => if isDir then .list else .mkdir

def made : Except Errno Unit → Phase V
  | .error _ => ep.afterInit r (newDB ep.database)
  | .ok _ => .list

def removed : Except Errno Unit → Phase V
  | .error _ => .finished (.status "ok")
  | .ok _ => .statPut

def created : Except Errno OpenFile → Phase V
  | .error _ => .finished (.status "ok")
  | .ok file => writing file (ep.gob.messages (ep.decoded r.body).value)

def written (bs : List Bytes) : Except Errno OpenFile → Phase V
  | .error _ => .finished (.status "ok")
  | .ok file => writing file bs

def move : Phase V → Move FileName (Phase V) (Reply V)
  | .statExists => .call (.stat .location) fun found => if found.isOk then .statIsDir else .mkdir
  | .statIsDir => .call (.stat .location) isDirSeen
  | .mkdir => .call .mkdirAll (ep.made r)
  | .list => .call .readDir (ep.listed r)
  | .load db file files => .call (.readFile file) fun content =>
    ep.loading r (ep.loadedFile db file content) files
  | .statDelete => .call (.stat (.entry ep.key)) fun found => if found.isOk then .remove else .statPut
  | .remove => .call (.remove ep.key) removed
  | .statPut => .call (.stat (.entry ep.key)) fun found =>
    if found.isOk then .finished (.status "ok") else .create
  | .create => .call (.create ep.key) (ep.created r)
  | .write file b bs => .call (.write file b) (written bs)
  | .finished reply => .done reply

/-- The handler from the opened database on. -/
def serveOpened (db : DB V) : Io (Reply V) :=
  if ep.saves r.method then ep.save db r.body else Prog.pure (ep.load db)

theorem follows_writing (bs : List Bytes) (file : OpenFile) (f : Option Error → Io (Reply V))
    (hf : ∀ err, f err = Prog.pure (.status "ok")) :
    Follows (ep.move r) (writing file bs) (writeAll file bs >>= f) := by
  induction bs generalizing file with
  | nil =>
    rw [writeAll, return_eq, pure_bind, hf]
    exact .done rfl
  | cons b bs ih =>
    refine .call rfl fun res => ?_
    cases res with
    | error e =>
      change Follows (ep.move r) _ (f (some (.os e)))
      rw [hf]
      exact .done rfl
    | ok file => exact ih file

theorem follows_put (db : DB V) :
    Follows (ep.move r) .statPut
      (put ep.gob db ep.key (ep.decoded r.body).value >>= fun _ => Prog.pure (.status "ok")) := by
  refine .call rfl fun found => ?_
  cases found with
  | ok b => exact .done rfl
  | error e =>
    refine .call rfl fun res => ?_
    cases res with
    | error e => exact .done rfl
    | ok file =>
      change Follows (ep.move r) _ ((encode ep.gob file (ep.decoded r.body).value >>= _) >>= _)
      rw [bind_assoc]
      refine ep.follows_writing r _ file _ fun err => ?_
      cases err <;> rfl

theorem follows_afterInit (db : DB V) :
    Follows (ep.move r) (ep.afterInit r db) (ep.serveOpened r db) := by
  unfold afterInit serveOpened
  split_ifs with hsaves hhas
  · change Follows (ep.move r) .statDelete
      ((delete db ep.key >>= _) >>= fun _ => Prog.pure (.status "ok"))
    rw [bind_assoc, delete, hhas]
    refine .call rfl fun found => ?_
    cases found with
    | error e => exact ep.follows_put r db
    | ok b =>
      refine .call rfl fun res => ?_
      cases res with
      | error e => exact .done rfl
      | ok u => exact ep.follows_put r _
  · change Follows (ep.move r) .statPut
      ((delete db ep.key >>= _) >>= fun _ => Prog.pure (.status "ok"))
    rw [bind_assoc, delete, Bool.eq_false_iff.mpr hhas]
    exact ep.follows_put r db
  · exact .done rfl

theorem follows_loading (db : DB V) (files : List FileName) :
    Follows (ep.move r) (ep.loading r db files)
      (loadFiles ep.gob db files >>= ep.serveOpened r) := by
  induction files generalizing db with
  | nil => exact ep.follows_afterInit r db
  | cons file files ih =>
    refine .call rfl fun res => ?_
    cases res with
    | error e => exact ih db
    | ok content =>
      cases hd : ep.gob.decode content with
      | none =>
        simp only [loadedFile, Prog.bind, return_eq, hd]
        exact ih db
      | some obj =>
        simp only [loadedFile, Prog.bind, return_eq, hd]
        exact ih _

theorem opened_bind (p : Io (DB V)) :
    (p >>= fun db => (Prog.pure (db, none) : Io (DB V × Option Error))) >>=
      (fun opened => ep.serveOpened r opened.1) = p >>= ep.serveOpened r := by
  rw [bind_assoc]
  rfl

theorem follows_listed :
    Follows (ep.move r) .list ((listDirFiles >>= fun files =>
      match files with
      | .error e => (Prog.pure (newDB ep.database, some (.os e)) : Io (DB V × Option Error))
      | .ok files =>
        loadFiles ep.gob (newDB ep.database) files >>= fun db => Prog.pure (db, none)) >>=
      fun opened => ep.serveOpened r opened.1) := by
  refine .call rfl fun infos => ?_
  cases infos with
  | error e => exact ep.follows_afterInit r _
  | ok infos =>
    have h := ep.follows_loading r (newDB ep.database)
      (((infos : List (FileName × Bool)).filter fun info => !info.2).map Prod.fst)
    rw [← opened_bind] at h
    exact h

theorem follows_mkdir {k : Except Errno Unit → Io (Reply V)}
    (herror : ∀ e, Follows (ep.move r) (ep.afterInit r (newDB ep.database)) (k (.error e)))
    (hok : Follows (ep.move r) .list (k (.ok ()))) :
    Follows (ep.move r) .mkdir (.call .mkdirAll k) := by
  refine .call rfl fun made => ?_
  cases made with
  | error e => exact herror e
  | ok u => exact hok

/-- The handler goes through the phases of the machine, whatever it is told. -/
theorem follows_handler : Follows (ep.move r) .statExists (ep.handler r) := by
  have hhandler : ep.handler r =
      init ep.gob (newDB ep.database) >>= fun opened => ep.serveOpened r opened.1 := by
    change (init ep.gob (newDB ep.database) >>= _) >>= ep.serveOpened r = _
    rw [bind_assoc]
    rfl
  rw [hhandler]
  refine .call rfl fun found => ?_
  cases found with
  | error e => exact ep.follows_mkdir r (fun e => ep.follows_afterInit r _) (ep.follows_listed r)
  | ok b =>
    refine .call rfl fun found => ?_
    cases found with
    | error e => exact ep.follows_mkdir r (fun e => ep.follows_afterInit r _) (ep.follows_listed r)
    | ok isDir =>
      cases isDir with
      | false => exact ep.follows_mkdir r (fun e => ep.follows_afterInit r _) (ep.follows_listed r)
      | true => exact ep.follows_listed r

end Endpoint

end NexFi.StoreHandlers
