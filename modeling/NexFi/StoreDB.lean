import Mathlib.Data.Finmap
import NexFi.GobStream
import NexFi.PosixProgram

/-!
# The gob file database

A `DB` keeps its objects twice: in `objectsMap` and as one gob file per key in
its directory. `Init` fills the map from the directory; `Put` and `Delete`
change both copies, `Put` deciding by the disk and `Delete` by the map first.
The functions below make the file-system calls of the source in the source's
order. Keys are plain file names, so `path.Join` of location and key is an entry
of the location.
-/

namespace NexFi.StoreDB
open Posix

def PlainName (s : String) : Prop := s ≠ "" ∧ '/' ∉ s.toList ∧ s ≠ "." ∧ s ≠ ".."

instance (s : String) : Decidable (PlainName s) := inferInstanceAs (Decidable (_ ∧ _ ∧ _ ∧ _))

abbrev FileName := {s : String // PlainName s}

theorem plainName_title : PlainName "title" := by decide

def titleKey : FileName := ⟨"title", plainName_title⟩

inductive Error
  | os (e : Errno)
  | text (message : String)
  deriving DecidableEq

abbrev Objects (V : Type) := Finmap fun _ : FileName => V

/-- An open database. Whether an `interface{}` in the map holds an object or a
pointer to one makes no difference to any caller and is not recorded. -/
structure DB (V : Type) where
  name : String
  objectsMap : Objects V

abbrev Io (α : Type) := Prog FileName α

def fileExists (filename : Path FileName) : Io Bool := do
  match ← Prog.op (.stat filename) with
  | .ok _ => return true
  | .error _ => return false

def fileIsDir (dirname : Path FileName) : Io Bool := do
  match ← Prog.op (.stat dirname) with
  | .ok isDir => return isDir
  | .error _ => return false

def listDirFiles : Io (Except Errno (List FileName)) := do
  match ← Prog.op .readDir with
  | .ok fileInfos =>
    let fileInfos : List (FileName × Bool) := fileInfos
    return .ok ((fileInfos.filter fun info => !info.2).map Prod.fst)
  | .error e => return .error e

variable {V : Type}

def newDB (name : String) : DB V where
  name := if name.length ≤ 0 then "demo" else name
  objectsMap := ∅

def has (db : DB V) (key : FileName) : Bool := (db.objectsMap.lookup key).isSome

def get (db : DB V) (key : FileName) : Option V := db.objectsMap.lookup key

def count (db : DB V) : ℕ := db.objectsMap.keys.card

def dbFileExists (name : FileName) : Io Bool := fileExists (.entry name)

def locationMissing : Io Bool := do
  match ← fileExists .location with
  | false => return true
  | true =>
    let isDir ← fileIsDir .location
    return !isDir

variable (G : Gob V)

def readFile (file : FileName) : Io (Except Error V) := do
  match ← Prog.op (.readFile file) with
  | .ok content =>
    match G.decode content with
    | some obj => return .ok obj
    | none => return .error (.text "gob")
  | .error e => return .error (.os e)

/-- The loop of `StringMap` in `Init`: a file that cannot be read or decoded is
skipped. -/
def loadFiles (db : DB V) : List FileName → Io (DB V)
  | [] => return db
  | file :: files => do
    match ← readFile G file with
    | .ok obj => loadFiles { db with objectsMap := db.objectsMap.insert file obj } files
    | .error _ => loadFiles db files

def init (db : DB V) : Io (DB V × Option Error) := do
  let missing ← locationMissing
  let made ← if missing then Prog.op .mkdirAll else pure (.ok ())
  match made with
  | .error e => return (db, some (.os e))
  | .ok _ =>
    match ← listDirFiles with
    | .error e => return (db, some (.os e))
    | .ok files =>
      let db ← loadFiles G db files
      return (db, none)

/-- One write per message, at the file's own offset, until one fails. -/
def writeAll (file : OpenFile) : List Bytes → Io (Option Error)
  | [] => return none
  | b :: bs => do
    match ← Prog.op (.write file b) with
    | .ok file => writeAll file bs
    | .error e => return some (.os e)

def encode (file : OpenFile) (value : V) : Io (Option Error) := writeAll file (G.messages value)

def put (db : DB V) (key : FileName) (value : V) : Io (DB V × Option Error) := do
  match ← fileExists (.entry key) with
  | true => return (db, some (.text "file already exists"))
  | false =>
    match ← Prog.op (.create key) with
    | .error e => return (db, some (.os e))
    | .ok file =>
      match ← encode G file value with
      | some e => return (db, some e)
      | none => return ({ db with objectsMap := db.objectsMap.insert key value }, none)

def delete (db : DB V) (key : FileName) : Io (DB V × Option Error) := do
  match has db key with
  | false => return (db, none)
  | true =>
    match ← fileExists (.entry key) with
    | false => return (db, none)
    | true =>
      match ← Prog.op (.remove key) with
      | .error e => return (db, some (.os e))
      | .ok _ => return ({ db with objectsMap := db.objectsMap.erase key }, none)

def update (db : DB V) (key : FileName) (value : V) : Io (DB V × Option Error) := do
  let (db, err) ← delete db key
  match err with
  | some e => return (db, some e)
  | none => put G db key value

end NexFi.StoreDB
