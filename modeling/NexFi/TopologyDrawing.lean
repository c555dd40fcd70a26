import Mathlib.Logic.Function.Basic
import NexFi.TopologyPage

/-!
# Drawing a vis document

One loop gives a box to every primary and every neighbour, a second one looks up
the boxes of the routers. A router may be a secondary interface of its entry,
and no box is made for those: the drawing is complete exactly when each router
is also a primary or a neighbour somewhere in the document.
-/

namespace NexFi.Topology
open GoJson KeyedList

def isMac (s : String) : Bool :=
  s.toList.length = 17 && s.toList.zipIdx.all fun p =>
    if p.2 % 3 = 2 then p.1 = ':' else "0123456789abcdef".toList.contains p.1

structure Mac where
  text : String
  format : isMac text = true
  deriving DecidableEq

structure Neighbor where
  router : Mac
  neighbor : Mac
  metric : String
  deriving DecidableEq

structure VisEntry where
  primary : Mac
  neighbors : Option (List Neighbor)

/-- An entry as `batadv-vis -f jsondoc` prints it, without its clients. -/
structure PrintedEntry where
  primary : Mac
  secondary : List Mac
  neighbors : List Neighbor
  own_routers : ∀ n ∈ neighbors, n.router = primary ∨ n.router ∈ secondary

def PrintedEntry.toVisEntry (e : PrintedEntry) : VisEntry := ⟨e.primary, some e.neighbors⟩

/-- A new generator: the positions in the order in which `pop` hands them out
after `reverse`. -/
def positionGenerator : List Position :=
  [(50, 50), (200, 50), (350, 50), (500, 50), (650, 50), (800, 50),
    (50, 150), (200, 150), (350, 150), (500, 150), (650, 150), (800, 150),
    (50, 250), (200, 250), (350, 250), (500, 250), (650, 250), (800, 250),
    (50, 350), (200, 350), (350, 350), (500, 350), (650, 350), (800, 350),
    (50, 450), (200, 450), (350, 450), (500, 450), (650, 450), (800, 450),
    (50, 550), (200, 550), (350, 550), (500, 550), (650, 550), (800, 550)].map fun p => ⟨p.1, p.2⟩

def getPos : List Position → Position × List Position
  | [] => (⟨0, 0⟩, [])
  | p :: rest => (p, rest)

def getSavedPosition (macAddr : String) (posData : VisPositionData) : Option Position :=
  match posData.nodes with
  | none => none
  | some nodes => (nodes.find? fun node => node.name = macAddr).map GoJson.Node.position

structure Drawing where
  page : Page
  nodes : Mac → Option Cell
  positions : List Position

def choosePosition (posData : VisPositionData) (positions : List Position) (mac : Mac) :
    Position × List Position :=
  match getSavedPosition mac.text posData with
  | some pos => (pos, positions)
  | none => getPos positions

section Draw
variable (getNodeDetail : String → Option String) (posData : VisPositionData)

def place (d : Drawing) (mac : Mac) : Drawing :=
  let (pos, positions) := choosePosition posData d.positions mac
  let (page, node) := newNode getNodeDetail d.page mac.text pos
  ⟨page, Function.update d.nodes mac node, positions⟩

def placeAll (d : Drawing) (macs : List Mac) : Drawing := macs.foldl (place getNodeDetail posData) d

/-- The first loop; `false` when it meets an entry without neighbours list. -/
def drawEntries (d : Drawing) : List VisEntry → Drawing × Bool
  | [] => (d, true)
  | e :: vis =>
    let d := place getNodeDetail posData d e.primary
    match e.neighbors with
    | none => (d, false)
    | some neighbors =>
      drawEntries (placeAll getNodeDetail posData d (neighbors.map Neighbor.neighbor)) vis

/-- The second loop; `false` when an end of a route has no box. -/
def drawRoutes (nodes : Mac → Option Cell) (page : Page) : List Neighbor → Page × Bool
  | [] => (page, true)
  | n :: rest =>
    match nodes n.router, nodes n.neighbor with
    | some node1, some node2 => drawRoutes nodes (newRoute page node1 node2 n.metric) rest
    | _, _ => (page, false)

def neighborsOf (vis : List VisEntry) : List Neighbor := vis.flatMap fun e => e.neighbors.getD []

/-- The page afterwards, and whether the drawing came to its end. -/
def drawNodesByJson (page : Page) (vis : List VisEntry) : Page × Bool :=
  let (d, finished) := drawEntries getNodeDetail posData ⟨page, fun _ => none, positionGenerator⟩ vis
  if finished then drawRoutes d.nodes d.page (neighborsOf vis) else (d.page, false)

/-- The positions asked for: saved ones where there are any, else the next of
the generator. -/
def placings (positions : List Position) : List Mac → List (String × Position)
  | [] => []
  | mac :: macs =>
    let (pos, positions) := choosePosition posData positions mac
    (mac.text, pos) :: placings positions macs

theorem keys_placings (positions : List Position) (macs : List Mac) :
    keys (placings posData positions macs) = macs.map Mac.text := by
  induction macs generalizing positions with
  | nil => rfl
  | cons mac macs ih => exact congrArg (mac.text :: ·) (ih _)

theorem mem_placings {positions : List Position} {macs : List Mac} {p : String × Position}
    (h : p ∈ placings posData positions macs) {pos : Position}
    (hsaved : getSavedPosition p.1 posData = some pos) : p.2 = pos := by
  induction macs generalizing positions with
  | nil => cases h
  | cons mac macs ih =>
    rcases List.mem_cons.mp h with rfl | h
    · simp only [hsaved]
    · exact ih h

/-- The variables of the first loop after it met some addresses: these have
boxes, and `nodes` holds the boxes and nothing else. -/
structure Drawing.Placed (d : Drawing) (macs : List Mac) : Prop where
  consistent : d.page.Consistent
  known : ∀ mac, (d.nodes mac).isSome ↔ mac ∈ macs
  box : ∀ mac c, d.nodes mac = some c → ∃ b ∈ d.page.boxes, b.name = mac.text ∧ c = .rect b

theorem place_layout {d : Drawing} (h : d.page.Consistent) (mac : Mac) :
    (place getNodeDetail posData d mac).page.layout =
      insertNew d.page.layout (mac.text, (choosePosition posData d.positions mac).1) :=
  h.layout_newNode getNodeDetail mac.text _

theorem place_links {d : Drawing} (h : d.page.Consistent) (mac : Mac) :
    (place getNodeDetail posData d mac).page.links = d.page.links := by
  rcases h.newNode_cases getNodeDetail mac.text (choosePosition posData d.positions mac).1 with
    ⟨b, -, -, heq⟩ | ⟨-, text, heq⟩
  · simp [place, heq]
  · simp [place, heq]

theorem placed_place {d : Drawing} {macs : List Mac} (h : d.Placed macs) (mac : Mac) :
    (place getNodeDetail posData d mac).Placed (macs ++ [mac]) := by
  have hcases : ∃ b, (place getNodeDetail posData d mac).nodes =
      Function.update d.nodes mac (some (.rect b)) ∧ b.name = mac.text ∧
      b ∈ (place getNodeDetail posData d mac).page.boxes ∧
      d.page.boxes ⊆ (place getNodeDetail posData d mac).page.boxes := by
    generalize hpos : (choosePosition posData d.positions mac).1 = pos
    rcases h.consistent.newNode_cases getNodeDetail mac.text pos with
      ⟨b, hb, hname, heq⟩ | ⟨-, text, heq⟩
    · refine ⟨b, ?_, hname, ?_, ?_⟩
      · simp [place, hpos, heq]
      · simpa [place, hpos, heq] using hb
      · simp [place, hpos, heq]
    · refine ⟨⟨d.page.nextId, mac.text, text, pos⟩, ?_, rfl, ?_, ?_⟩
      · simp [place, hpos, heq]
      · simp [place, hpos, heq]
      · simp [place, hpos, heq]
  obtain ⟨b, hnodes, hname, hb, hsub⟩ := hcases
  refine ⟨h.consistent.newNode getNodeDetail mac.text _, fun m => ?_, fun m c hm => ?_⟩
  · rw [hnodes]
    by_cases heq : m = mac
    · simp [heq]
    · simp [h.known m, heq]
  · rw [hnodes] at hm
    by_cases heq : m = mac
    · subst heq
      rw [Function.update_self, Option.some.injEq] at hm
      exact ⟨b, hb, hname, hm.symm⟩
    · rw [Function.update_of_ne heq] at hm
      obtain ⟨b', hb', hname', hc⟩ := h.box m c hm
      exact ⟨b', hsub hb', hname', hc⟩

theorem placed_placeAll {d : Drawing} {macs : List Mac} (h : d.Placed macs) (more : List Mac) :
    (placeAll getNodeDetail posData d more).Placed (macs ++ more) := by
  induction more generalizing d macs with
  | nil => simpa [placeAll] using h
  | cons mac more ih =>
    have hstep := ih (placed_place getNodeDetail posData h mac)
    rwa [List.append_assoc] at hstep

theorem placeAll_layout {d : Drawing} (h : d.page.Consistent) (macs : List Mac) :
    (placeAll getNodeDetail posData d macs).page.layout =
      insertAll d.page.layout (placings posData d.positions macs) := by
  induction macs generalizing d with
  | nil => rfl
  | cons mac macs ih =>
    have hstep := ih (d := place getNodeDetail posData d mac) (h.newNode getNodeDetail mac.text _)
    rw [place_layout getNodeDetail posData h] at hstep
    exact hstep

theorem placeAll_links {d : Drawing} (h : d.page.Consistent) (macs : List Mac) :
    (placeAll getNodeDetail posData d macs).page.links = d.page.links := by
  induction macs generalizing d with
  | nil => rfl
  | cons mac macs ih =>
    have hstep := ih (d := place getNodeDetail posData d mac) (h.newNode getNodeDetail mac.text _)
    rw [place_links getNodeDetail posData h] at hstep
    exact hstep

end Draw

section Routes
variable (nodes : Mac → Option Cell)

def Connects (l : Link) (n : Neighbor) : Prop :=
  (∃ c, nodes n.router = some c ∧ c.id = l.source) ∧
  (∃ c, nodes n.neighbor = some c ∧ c.id = l.target) ∧ l.label = n.metric

def Joinable (n : Neighbor) : Prop := (nodes n.router).isSome ∧ (nodes n.neighbor).isSome

theorem drawRoutes_joinable {n : Neighbor} (h : Joinable nodes n) (page : Page)
    (rest : List Neighbor) :
    ∃ c₁ c₂, nodes n.router = some c₁ ∧ nodes n.neighbor = some c₂ ∧
      drawRoutes nodes page (n :: rest) = drawRoutes nodes (newRoute page c₁ c₂ n.metric) rest := by
  obtain ⟨c₁, h₁⟩ := Option.isSome_iff_exists.mp h.1
  obtain ⟨c₂, h₂⟩ := Option.isSome_iff_exists.mp h.2
  exact ⟨c₁, c₂, h₁, h₂, by simp [drawRoutes, h₁, h₂]⟩

theorem drawRoutes_stopped {n : Neighbor} (h : ¬ Joinable nodes n) (page : Page)
    (rest : List Neighbor) : drawRoutes nodes page (n :: rest) = (page, false) := by
  unfold drawRoutes
  split
  · next c₁ c₂ h₁ h₂ => exact absurd ⟨by simp [h₁], by simp [h₂]⟩ h
  · rfl

theorem drawRoutes_boxes (page : Page) (rest : List Neighbor) :
    (drawRoutes nodes page rest).1.boxes = page.boxes := by
  induction rest generalizing page with
  | nil => rfl
  | cons n rest ih =>
    by_cases h : Joinable nodes n
    · obtain ⟨c₁, c₂, -, -, heq⟩ := drawRoutes_joinable nodes h page rest
      rw [heq, ih, Page.boxes_newRoute]
    · rw [drawRoutes_stopped nodes h]

theorem drawRoutes_consistent {page : Page} (h : page.Consistent) (rest : List Neighbor) :
    (drawRoutes nodes page rest).1.Consistent := by
  induction rest generalizing page with
  | nil => exact h
  | cons n rest ih =>
    by_cases hn : Joinable nodes n
    · obtain ⟨c₁, c₂, -, -, heq⟩ := drawRoutes_joinable nodes hn page rest
      rw [heq]
      exact ih (h.newRoute c₁ c₂ n.metric)
    · rw [drawRoutes_stopped nodes hn]
      exact h

theorem drawRoutes_finished (page : Page) (rest : List Neighbor) :
    (drawRoutes nodes page rest).2 = true ↔ ∀ n ∈ rest, Joinable nodes n := by
  induction rest generalizing page with
  | nil => simp [drawRoutes]
  | cons n rest ih =>
    by_cases h : Joinable nodes n
    · obtain ⟨c₁, c₂, -, -, heq⟩ := drawRoutes_joinable nodes h page rest
      rw [heq, ih]
      simp [h]
    · rw [drawRoutes_stopped nodes h]
      simp [h]

theorem drawRoutes_links (page : Page) {rest : List Neighbor} (h : ∀ n ∈ rest, Joinable nodes n) :
    ∃ ls, (drawRoutes nodes page rest).1.links = page.links ++ ls ∧
      List.Forall₂ (Connects nodes) ls rest := by
  induction rest generalizing page with
  | nil => exact ⟨[], (List.append_nil _).symm, .nil⟩
  | cons n rest ih =>
    obtain ⟨c₁, c₂, h₁, h₂, heq⟩ := drawRoutes_joinable nodes (h n List.mem_cons_self) page rest
    obtain ⟨ls, hls, hrest⟩ := ih (newRoute page c₁ c₂ n.metric)
      fun m hm => h m (List.mem_cons_of_mem n hm)
    refine ⟨⟨page.nextId, c₁.id, c₂.id, n.metric⟩ :: ls, ?_, .cons ?_ hrest⟩
    · rw [heq, hls, Page.links_newRoute, List.append_assoc]
      rfl
    · exact ⟨⟨c₁, h₁, rfl⟩, ⟨c₂, h₂, rfl⟩, rfl⟩

end Routes

def macsOf (doc : List PrintedEntry) : List Mac :=
  doc.flatMap fun e => e.primary :: e.neighbors.map Neighbor.neighbor

def recordsOf (doc : List PrintedEntry) : List Neighbor := doc.flatMap PrintedEntry.neighbors

/-- The page's only box of a name, by its number. -/
def Page.BoxOf (page : Page) (mac : Mac) (id : ℕ) : Prop :=
  ∃ b ∈ page.boxes, b.id = id ∧ ∀ b' ∈ page.boxes, b'.name = mac.text ↔ b' = b

/-- The drawing came to its end, with one link for every record of the document. -/
def DrawsDocument (doc : List PrintedEntry) (result : Page × Bool) : Prop :=
  result.2 = true ∧ List.Forall₂ (fun (l : Link) (n : Neighbor) =>
    result.1.BoxOf n.router l.source ∧ result.1.BoxOf n.neighbor l.target ∧ l.label = n.metric)
    result.1.links (recordsOf doc)

section Document
variable (getNodeDetail : String → Option String) (posData : VisPositionData) (page : Page)
  (doc : List PrintedEntry)

def drawDocument : Page × Bool :=
  drawNodesByJson getNodeDetail posData page.clear (doc.map PrintedEntry.toVisEntry)

def placed : Drawing :=
  placeAll getNodeDetail posData ⟨page.clear, fun _ => none, positionGenerator⟩ (macsOf doc)

theorem drawEntries_printed (d : Drawing) :
    drawEntries getNodeDetail posData d (doc.map PrintedEntry.toVisEntry) =
      (placeAll getNodeDetail posData d (macsOf doc), true) := by
  induction doc generalizing d with
  | nil => rfl
  | cons e doc ih =>
    simp only [List.map_cons, drawEntries, PrintedEntry.toVisEntry]
    have hrest := ih (placeAll getNodeDetail posData (place getNodeDetail posData d e.primary)
      (e.neighbors.map Neighbor.neighbor))
    simp only [placeAll, macsOf, List.flatMap_cons, List.cons_append, List.foldl_cons,
      List.foldl_append] at hrest ⊢
    exact hrest

theorem neighborsOf_printed : neighborsOf (doc.map PrintedEntry.toVisEntry) = recordsOf doc := by
  rw [neighborsOf, List.flatMap_map]
  rfl

theorem drawDocument_eq :
    drawDocument getNodeDetail posData page doc =
      drawRoutes (placed getNodeDetail posData page doc).nodes
        (placed getNodeDetail posData page doc).page (recordsOf doc) := by
  rw [drawDocument, drawNodesByJson, drawEntries_printed, neighborsOf_printed]
  rfl

theorem placed_start (positions : List Position) :
    Drawing.Placed ⟨page.clear, fun _ => none, positions⟩ [] where
  consistent := page.consistent_clear
  known _ := by simp
  box _ _ hc := by cases hc

theorem placed_placed :
    (placed getNodeDetail posData page doc).Placed (macsOf doc) :=
  placed_placeAll getNodeDetail posData (placed_start page _) (macsOf doc)

theorem boxes_drawDocument :
    (drawDocument getNodeDetail posData page doc).1.boxes =
      (placed getNodeDetail posData page doc).page.boxes := by
  rw [drawDocument_eq, drawRoutes_boxes]

theorem consistent_drawDocument : (drawDocument getNodeDetail posData page doc).1.Consistent := by
  rw [drawDocument_eq]
  exact drawRoutes_consistent _ (placed_placed getNodeDetail posData page doc).consistent _

theorem boxOf_node {mac : Mac} {c : Cell}
    (hc : (placed getNodeDetail posData page doc).nodes mac = some c) :
    (drawDocument getNodeDetail posData page doc).1.BoxOf mac c.id := by
  obtain ⟨b, hb, hname, rfl⟩ := (placed_placed getNodeDetail posData page doc).box mac c hc
  rw [← boxes_drawDocument] at hb
  refine ⟨b, hb, rfl, fun b' hb' => ⟨fun hname' => ?_, ?_⟩⟩
  · have hnames := (consistent_drawDocument getNodeDetail posData page doc).names
    exact List.inj_on_of_nodup_map hnames hb' hb (hname'.trans hname.symm)
  · rintro rfl
    exact hname

/-- The document is drawn exactly when every router of a record is a primary or
a neighbour of the document. -/
theorem drawsDocument_iff :
    DrawsDocument doc (drawDocument getNodeDetail posData page doc) ↔
      ∀ n ∈ recordsOf doc, n.router ∈ macsOf doc := by
  have hplaced := placed_placed getNodeDetail posData page doc
  have hneighbor : ∀ n ∈ recordsOf doc, n.neighbor ∈ macsOf doc := by
    intro n hn
    obtain ⟨e, he, hne⟩ := List.mem_flatMap.mp hn
    exact List.mem_flatMap.mpr ⟨e, he, List.mem_cons_of_mem _ (List.mem_map_of_mem hne)⟩
  have hjoinable : (∀ n ∈ recordsOf doc, Joinable (placed getNodeDetail posData page doc).nodes n) ↔
      ∀ n ∈ recordsOf doc, n.router ∈ macsOf doc := by
    refine forall₂_congr fun n hn => ?_
    rw [Joinable, hplaced.known, hplaced.known]
    exact and_iff_left (hneighbor n hn)
  have hfinished : (drawDocument getNodeDetail posData page doc).2 = true ↔
      ∀ n ∈ recordsOf doc, n.router ∈ macsOf doc := by
    rw [drawDocument_eq, drawRoutes_finished, hjoinable]
  refine ⟨fun h => hfinished.mp h.1, fun h => ⟨hfinished.mpr h, ?_⟩⟩
  obtain ⟨ls, hls, hconnects⟩ := drawRoutes_links (placed getNodeDetail posData page doc).nodes
    (placed getNodeDetail posData page doc).page (hjoinable.mpr h)
  have hlinks : (drawDocument getNodeDetail posData page doc).1.links = ls := by
    have hnone := placeAll_links getNodeDetail posData
      (d := ⟨page.clear, fun _ => none, positionGenerator⟩) page.consistent_clear (macsOf doc)
    rw [drawDocument_eq, hls, placed, hnone]
    rfl
  rw [hlinks]
  refine hconnects.imp fun l n hln => ?_
  obtain ⟨⟨c₁, h₁, hsource⟩, ⟨c₂, h₂, htarget⟩, hlabel⟩ := hln
  exact ⟨hsource ▸ boxOf_node getNodeDetail posData page doc h₁,
    htarget ▸ boxOf_node getNodeDetail posData page doc h₂, hlabel⟩

end Document

def macA : Mac := ⟨"02:00:00:00:00:0a", by decide⟩

def macB : Mac := ⟨"02:00:00:00:00:0b", by decide⟩

def macC : Mac := ⟨"02:00:00:00:00:0c", by decide⟩

def twoInterfaces : PrintedEntry where
  primary := macA
  secondary := [macB]
  neighbors := [⟨macB, macC, "1.000"⟩]
  own_routers := by decide

theorem secondary_router_undrawn :
    ¬ DrawsDocument [twoInterfaces]
      (drawDocument (fun _ => none) ⟨none⟩ ⟨[], [], 0⟩ [twoInterfaces]) := by
  rintro ⟨hfinished, -⟩
  revert hfinished
  decide

end NexFi.Topology
