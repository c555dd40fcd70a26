import NexFi.GoJson
import NexFi.StoreRefinement

/-!
# The two handlers over the database

`/config` and `/topo/position` keep one document each, under one key of one
database, and open the database anew for every request. They differ in the
document's type and in which methods take the saving branch, so both are
instances of one handler over an `Endpoint`. As in the source the errors of
`Init`, of the JSON decoder and of `Update` are dropped.
-/

namespace NexFi.StoreHandlers
open Posix Prog StoreDB GoJson

structure Request where
  method : String
  body : Body

inductive Reply (V : Type)
  | status (s : String)
  | document (v : V)
  deriving DecidableEq

structure Endpoint (V : Type) where
  database : String
  key : FileName
  zero : V
  decode : V → Json → Decoded V
  gob : Gob V
  saves : String → Bool
  saves_post : saves "POST" = true
  saves_get : saves "GET" = false

variable {V : Type}

def getDatabase (G : Gob V) (name : String) : Io (DB V) := do
  let (db, _) ← init G (newDB name)
  return db

namespace Endpoint
variable (ep : Endpoint V)

/-- What `decoder.Decode(&dt)` leaves in `dt`, with or without an error. -/
def decoded (body : Body) : Decoded V := decodeBody ep.zero ep.decode body

def save (db : DB V) (body : Body) : Io (Reply V) := do
  let dt := (ep.decoded body).value
  let _ ← update ep.gob db ep.key dt
  return .status "ok"

def load (db : DB V) : Reply V := .document ((get db ep.key).getD ep.zero)

def handler (r : Request) : Io (Reply V) := do
  let db ← getDatabase ep.gob ep.database
  if ep.saves r.method then ep.save db r.body else return ep.load db

end Endpoint

def configEndpoint (G : Gob ConfigData) : Endpoint ConfigData where
  database := "config"
  key := ⟨"title", by decide⟩
  zero := ⟨""⟩
  decode := decodeConfigData
  gob := G
  saves := fun method => method ≠ "GET"
  saves_post := by decide
  saves_get := by decide

def configHandler (G : Gob ConfigData) : Request → Io (Reply ConfigData) :=
  (configEndpoint G).handler

def topoPositionEndpoint (w : IntSize) (G : Gob VisPositionData) : Endpoint VisPositionData where
  database := "topo"
  key := ⟨"position", by decide⟩
  zero := ⟨none⟩
  decode := decodeVisPositionData w
  gob := G
  saves := fun method => method = "POST"
  saves_post := by decide
  saves_get := by decide

def topoPositionHandler (w : IntSize) (G : Gob VisPositionData) :
    Request → Io (Reply VisPositionData) :=
  (topoPositionEndpoint w G).handler

def getRequest : Request := ⟨"GET", none⟩

def postConfig (title : String) : Request := ⟨"POST", some (marshalConfigData ⟨title⟩)⟩

theorem decoded_postConfig (G : Gob ConfigData) (title : String) :
    (configEndpoint G).decoded (postConfig title).body = ⟨⟨title⟩, false⟩ := by
  have hkey : foldEq "title" "title" = true := by decide
  simp [Endpoint.decoded, configEndpoint, postConfig, decodeBody, marshalConfigData,
    decodeConfigData, decodeStruct, decodeString, hkey]

end NexFi.StoreHandlers
