import NexFi.GoGob
import NexFi.StoreCrash
import NexFi.TopologyDrawing

/-!
# The saved layout

The page posts the names and positions of its boxes, the server keeps them in
the store and returns them, and the next drawing asks for the position of every
address it places. The server holds nothing between two requests, so a restart
is no step of its own.
-/

namespace NexFi.Topology
open GoJson Posix Prog StoreDB StoreHandlers KeyedList

def saveVisPosition (page : Page) : Json :=
  .obj [("nodes", .arr (page.boxes.map fun b => .obj [("name", .str b.name),
    ("position", .obj [("x", .num (.ofInt b.position.x)), ("y", .num (.ofInt b.position.y))])]))]

def postPosition (page : Page) : Request := ⟨"POST", some (saveVisPosition page)⟩

/-- A property of an object; of two with one name the last counts. -/
def field (key : String) : Json → Option Json
  | .obj fields => (fields.reverse.find? fun kv => kv.1 = key).map Prod.snd
  | _ => none

/-- A coordinate; the server prints integers only. -/
def readNumber : Json → Option ℤ
  | .num n => if n.fraction = none ∧ n.exponent = none then some n.toInt else none
  | _ => none

def readString : Json → Option String
  | .str s => some s
  | _ => none

def readPosition (json : Json) : Option Position := do
  let x ← readNumber (← field "x" json)
  let y ← readNumber (← field "y" json)
  return ⟨x, y⟩

def readNode (json : Json) : Option GoJson.Node := do
  let name ← readString (← field "name" json)
  let position ← readPosition (← field "position" json)
  return ⟨name, position⟩

/-- The reply as the page sees it: without a list when `nodes` is null. -/
def readPosData (json : Json) : Option VisPositionData :=
  match field "nodes" json with
  | none => some ⟨none⟩
  | some .null => some ⟨none⟩
  | some (.arr items) => (items.mapM readNode).map fun nodes => ⟨some nodes⟩
  | some _ => none

def fetchPosition (w : IntSize) (G : Gob VisPositionData) (fs : Fs FileName) :
    Option VisPositionData :=
  match (run perform (topoPositionHandler w G getRequest) fs).1 with
  | .document v => readPosData (marshalVisPositionData v)
  | .status _ => none

theorem readNumber_ofInt (n : ℤ) : readNumber (.num (.ofInt n)) = some n := by
  have hplain : (Number.ofInt n).fraction = none ∧ (Number.ofInt n).exponent = none := ⟨rfl, rfl⟩
  rw [readNumber, if_pos hplain, Number.toInt_ofInt]

theorem readNode_marshal (n : GoJson.Node) : readNode (marshalNode n) = some n := by
  simp [readNode, readPosition, readString, field, marshalNode, marshalPosition, readNumber_ofInt]

theorem readPosData_marshal (v : VisPositionData) :
    readPosData (marshalVisPositionData v) = some v := by
  obtain ⟨_ | nodes⟩ := v
  · simp [readPosData, marshalVisPositionData, field]
  · have hnodes : (nodes.map marshalNode).mapM readNode = some nodes := by
      induction nodes with
      | nil => rfl
      | cons n nodes ih => simp [readNode_marshal, ih]
    simp [readPosData, marshalVisPositionData, field, hnodes]

def nodesOf (page : Page) : List GoJson.Node := page.boxes.map fun b => ⟨b.name, b.position⟩

theorem saveVisPosition_eq (page : Page) :
    saveVisPosition page = marshalVisPositionData ⟨some (nodesOf page)⟩ := by
  simp [saveVisPosition, marshalVisPositionData, nodesOf, marshalNode, marshalPosition]

theorem decoded_postPosition {w : IntSize} (G : Gob VisPositionData) {page : Page}
    (h : ∀ b ∈ page.boxes, b.position.Fits w) :
    (topoPositionEndpoint w G).decoded (postPosition page).body =
      ⟨⟨some (nodesOf page)⟩, false⟩ := by
  have hfits : ∀ n ∈ nodesOf page, n.position.Fits w := by
    intro n hn
    obtain ⟨b, hb, rfl⟩ := List.mem_map.mp hn
    exact h b hb
  rw [Endpoint.decoded, postPosition, saveVisPosition_eq]
  exact decodeVisPositionData_marshal hfits _

theorem getSavedPosition_eq (macAddr : String) (posData : VisPositionData) :
    getSavedPosition macAddr posData =
      ((posData.nodes.getD []).find? fun node => node.name = macAddr).map GoJson.Node.position := by
  obtain ⟨_ | nodes⟩ := posData
  · rfl
  · rfl

section Saved
variable {page : Page} {posData : VisPositionData} (hnodes : posData.nodes.getD [] = nodesOf page)
include hnodes

theorem getSavedPosition_saved (hnames : (page.boxes.map Box.name).Nodup) {b : Box}
    (hb : b ∈ page.boxes) : getSavedPosition b.name posData = some b.position := by
  have hfind : (page.boxes.find? fun b' => b'.name = b.name) = some b :=
    find?_of_nodup_map hnames hb
  rw [getSavedPosition_eq, hnodes, nodesOf, List.find?_map, Option.map_map]
  simp only [Function.comp_def, hfind, Option.map_some]

theorem getSavedPosition_unsaved {name : String} (h : ∀ b ∈ page.boxes, b.name ≠ name) :
    getSavedPosition name posData = none := by
  rw [getSavedPosition_eq, hnodes, nodesOf, Option.map_eq_none_iff, List.find?_eq_none]
  intro n hn
  obtain ⟨b, hb, rfl⟩ := List.mem_map.mp hn
  simpa using h b hb

end Saved

/-- Every saved one of some addresses has a box, at its saved position. -/
def Restores (saved drawn : Page) (macs : List Mac) : Prop :=
  ∀ mac ∈ macs, ∀ b ∈ saved.boxes, b.name = mac.text →
    (∃ d ∈ drawn.boxes, d.name = mac.text) ∧
    ∀ d ∈ drawn.boxes, d.name = mac.text → d.position = b.position

theorem layout_drawDocument (getNodeDetail : String → Option String) (posData : VisPositionData)
    (page : Page) (doc : List PrintedEntry) :
    (drawDocument getNodeDetail posData page doc).1.layout =
      insertAll [] (placings posData positionGenerator (macsOf doc)) := by
  rw [Page.layout, boxes_drawDocument]
  exact placeAll_layout getNodeDetail posData page.consistent_clear (macsOf doc)

theorem restores_drawDocument (getNodeDetail : String → Option String) {posData : VisPositionData}
    {saved : Page} (hsaved : ∀ b ∈ saved.boxes, getSavedPosition b.name posData = some b.position)
    (page : Page) (doc : List PrintedEntry) :
    Restores saved (drawDocument getNodeDetail posData page doc).1 (macsOf doc) := by
  intro mac hmac b hb hname
  have hlayout := layout_drawDocument getNodeDetail posData page doc
  constructor
  · have hkey : mac.text ∈ keys (drawDocument getNodeDetail posData page doc).1.layout := by
      rw [hlayout, mem_keys_insertAll, keys_placings]
      exact Or.inr (List.mem_map_of_mem hmac)
    rw [Page.keys_layout] at hkey
    exact List.mem_map.mp hkey
  · intro d hd hdname
    have hmem : (d.name, d.position) ∈ (drawDocument getNodeDetail posData page doc).1.layout :=
      List.mem_map_of_mem hd
    rw [hlayout] at hmem
    have hplaced := (mem_of_insertAll hmem).resolve_left List.not_mem_nil
    refine mem_placings posData hplaced ?_
    rw [hdname, ← hname]
    exact hsaved b hb

section Served
variable (w : IntSize) (G : Gob VisPositionData) {fs : Fs FileName}

theorem fetchPosition_served (h : (topoPositionEndpoint w G).Healthy fs) (before after : List Request)
    (hafter : ∀ r ∈ after, (topoPositionEndpoint w G).saves r.method = false) {saved : Page}
    (hfits : ∀ b ∈ saved.boxes, b.position.Fits w) :
    fetchPosition w G ((topoPositionEndpoint w G).serve fs (before ++ postPosition saved :: after)) =
      some (G.canon ⟨some (nodesOf saved)⟩) := by
  have hbefore := (topoPositionEndpoint w G).healthy_serve before h
  have hcurrent := (topoPositionEndpoint w G).current_saved _ (r := postPosition saved) rfl hbefore
  rw [decoded_postPosition G hfits] at hcurrent
  rw [fetchPosition, topoPositionHandler, Endpoint.run_load _ _ rfl, Endpoint.serve_append,
    Endpoint.serve_cons, Endpoint.current_serve_loads _ hafter, hcurrent]
  exact readPosData_marshal _

end Served

/-- Whatever was saved before and read since, the next drawing of any document
puts every address it gives a box at its saved position, and it finds no
position for an address that was not saved. -/
theorem layout_survives (w : IntSize) (G : Gob VisPositionData)
    (hG : ∀ v, (G.canon v).nodes.getD [] = v.nodes.getD []) (fs : Fs FileName)
    (h : (topoPositionEndpoint w G).Healthy fs) (before after : List Request)
    (hafter : ∀ r ∈ after, (topoPositionEndpoint w G).saves r.method = false) (saved : Page)
    (hnames : (saved.boxes.map Box.name).Nodup) (hfits : ∀ b ∈ saved.boxes, b.position.Fits w)
    (getNodeDetail : String → Option String) (page : Page) (doc : List PrintedEntry) :
    ∃ posData, fetchPosition w G
        ((topoPositionEndpoint w G).serve fs (before ++ postPosition saved :: after)) =
          some posData ∧
      Restores saved (drawDocument getNodeDetail posData page doc).1 (macsOf doc) ∧
      ∀ mac : Mac, (∀ b ∈ saved.boxes, b.name ≠ mac.text) →
        getSavedPosition mac.text posData = none := by
  refine ⟨_, fetchPosition_served w G h before after hafter hfits, ?_, fun mac hmac => ?_⟩
  · refine restores_drawDocument getNodeDetail (fun b hb => ?_) page doc
    exact getSavedPosition_saved (hG _) hnames hb
  · exact getSavedPosition_unsaved (hG _) hmac

/-- The nodes of the document, each with all its interfaces. -/
def addressesOf (doc : List PrintedEntry) : List Mac :=
  doc.flatMap fun e => e.primary :: e.secondary ++ e.neighbors.map Neighbor.neighbor

theorem canon_visPositionGob (v : VisPositionData) :
    (GoGob.visPositionGob.canon v).nodes.getD [] = v.nodes.getD [] := by
  obtain ⟨_ | _ | ⟨n, nodes⟩⟩ := v <;> rfl

def wordSize : IntSize := ⟨64, by decide⟩

def pageB : Page := ⟨[.rect ⟨0, macB.text, "10.0.0.2", ⟨70, 80⟩⟩], [(macB.text, 0)], 1⟩

theorem fits_pageB : ∀ b ∈ pageB.boxes, b.position.Fits wordSize := by
  intro b hb
  obtain rfl := List.mem_singleton.mp hb
  exact ⟨by decide, by decide⟩

theorem layout_survives_pageB :
    let doc : List PrintedEntry := [⟨macA, [], [⟨macA, macB, "1.000"⟩], by decide⟩]
    ∃ posData, fetchPosition wordSize GoGob.visPositionGob
        ((topoPositionEndpoint wordSize GoGob.visPositionGob).serve Fs.empty
          ([] ++ postPosition pageB :: [getRequest])) = some posData ∧
      Restores pageB (drawDocument (fun _ => none) posData pageB doc).1 (macsOf doc) ∧
      ∀ mac : Mac, (∀ b ∈ pageB.boxes, b.name ≠ mac.text) →
        getSavedPosition mac.text posData = none :=
  layout_survives wordSize GoGob.visPositionGob canon_visPositionGob Fs.empty
    (Endpoint.healthy_empty _) [] [getRequest] (by decide) pageB (List.nodup_singleton _)
    fits_pageB (fun _ => none) pageB _

/-- A saved address that is only a second interface in the document is not drawn. -/
theorem secondary_not_restored :
    ∃ posData, fetchPosition wordSize GoGob.visPositionGob
        ((topoPositionEndpoint wordSize GoGob.visPositionGob).serve Fs.empty [postPosition pageB]) =
          some posData ∧
      ¬ Restores pageB (drawDocument (fun _ => none) posData pageB [⟨macA, [macB], [], by decide⟩]).1
        (addressesOf [⟨macA, [macB], [], by decide⟩]) := by
  refine ⟨_, fetchPosition_served wordSize GoGob.visPositionGob (Endpoint.healthy_empty _) [] []
    (by decide) fits_pageB, fun hrestores => ?_⟩
  have hb := hrestores macB (by decide) ⟨0, macB.text, "10.0.0.2", ⟨70, 80⟩⟩ List.mem_cons_self rfl
  revert hb
  decide

end NexFi.Topology
