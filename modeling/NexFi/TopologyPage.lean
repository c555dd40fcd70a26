import NexFi.GoJson
import NexFi.KeyedList

/-!
# The topology page

The page keeps its boxes twice: as cells of the graph, and by name and cell
number in `allNodes`. `newNode` looks a name up in the second and fetches the
box from the first. As long as the two are in step it adds a box exactly when
the name is new, so the boxes with their positions are a list whose first
positions stay.
-/

namespace NexFi.Topology
open GoJson KeyedList

structure Box where
  id : ℕ
  name : String
  text : String
  position : Position
  deriving DecidableEq

structure Link where
  id : ℕ
  source : ℕ
  target : ℕ
  label : String
  deriving DecidableEq

inductive Cell
  | rect (box : Box)
  | link (link : Link)
  deriving DecidableEq

def Cell.id : Cell → ℕ
  | .rect b => b.id
  | .link l => l.id

def Cell.box? : Cell → Option Box
  | .rect b => some b
  | .link _ => none

def Cell.link? : Cell → Option Link
  | .rect _ => none
  | .link l => some l

/-- The graph, the registry, and the number of the next cell. The stacking order
of the cells is left out. -/
structure Page where
  cells : List Cell
  allNodes : List (String × ℕ)
  nextId : ℕ

namespace Page

def boxes (page : Page) : List Box := page.cells.filterMap Cell.box?

def links (page : Page) : List Link := page.cells.filterMap Cell.link?

def getCell (page : Page) (id : ℕ) : Option Cell := page.cells.find? fun c => c.id = id

def clear (page : Page) : Page := { page with cells := [], allNodes := [] }

def addBox (page : Page) (name text : String) (position : Position) : Page where
  cells := page.cells ++ [.rect ⟨page.nextId, name, text, position⟩]
  allNodes := page.allNodes ++ [(name, page.nextId)]
  nextId := page.nextId + 1

end Page

/-- The box of a name. The text of a new one is the address that the node table
knows for it. -/
def newNode (getNodeDetail : String → Option String) (page : Page) (name : String)
    (position : Position) : Page × Option Cell :=
  match page.allNodes.find? fun node => node.1 = name with
  | some node => (page, page.getCell node.2)
  | none =>
    let text := (getNodeDetail name).getD name
    (page.addBox name text position, some (.rect ⟨page.nextId, name, text, position⟩))

def newRoute (page : Page) (node1 node2 : Cell) (label : String) : Page :=
  { page with
    cells := page.cells ++ [.link ⟨page.nextId, node1.id, node2.id, label⟩]
    nextId := page.nextId + 1 }

namespace Page

/-- The registry names the boxes of the graph, each once. -/
structure Consistent (page : Page) : Prop where
  registry : page.allNodes = page.boxes.map fun b => (b.name, b.id)
  names : (page.boxes.map Box.name).Nodup
  ids : (page.cells.map Cell.id).Nodup
  fresh : ∀ c ∈ page.cells, c.id < page.nextId

def layout (page : Page) : List (String × Position) := page.boxes.map fun b => (b.name, b.position)

theorem mem_boxes {page : Page} {b : Box} : b ∈ page.boxes ↔ Cell.rect b ∈ page.cells := by
  rw [boxes, List.mem_filterMap]
  constructor
  · rintro ⟨c | c, hc, heq⟩
    · cases heq
      exact hc
    · cases heq
  · exact fun h => ⟨_, h, rfl⟩

theorem keys_layout (page : Page) : keys page.layout = page.boxes.map Box.name := by
  simp [keys, layout, Function.comp_def]

@[simp] theorem boxes_addBox (page : Page) (name text : String) (position : Position) :
    (page.addBox name text position).boxes = page.boxes ++ [⟨page.nextId, name, text, position⟩] := by
  simp [boxes, addBox, List.filterMap_append, Cell.box?]

@[simp] theorem links_addBox (page : Page) (name text : String) (position : Position) :
    (page.addBox name text position).links = page.links := by
  simp [links, addBox, List.filterMap_append, Cell.link?]

@[simp] theorem boxes_newRoute (page : Page) (node1 node2 : Cell) (label : String) :
    (newRoute page node1 node2 label).boxes = page.boxes := by
  simp [boxes, newRoute, List.filterMap_append, Cell.box?]

@[simp] theorem links_newRoute (page : Page) (node1 node2 : Cell) (label : String) :
    (newRoute page node1 node2 label).links =
      page.links ++ [⟨page.nextId, node1.id, node2.id, label⟩] := by
  simp [links, newRoute, List.filterMap_append, Cell.link?]

theorem consistent_clear (page : Page) : page.clear.Consistent where
  registry := rfl
  names := List.nodup_nil
  ids := List.nodup_nil
  fresh _ hc := absurd hc List.not_mem_nil

section Steps
variable {page : Page} (h : page.Consistent)
include h

theorem Consistent.ids_append {c : Cell} (hc : c.id = page.nextId) :
    ((page.cells ++ [c]).map Cell.id).Nodup := by
  rw [List.map_append]
  refine List.nodup_append.mpr ⟨h.ids, List.nodup_singleton _, fun i hi j hj => ?_⟩
  obtain ⟨d, hd, rfl⟩ := List.mem_map.mp hi
  have hlt := h.fresh d hd
  rw [List.map_singleton, List.mem_singleton] at hj
  omega

theorem Consistent.fresh_append {c : Cell} (hc : c.id = page.nextId) :
    ∀ d ∈ page.cells ++ [c], d.id < page.nextId + 1 := by
  intro d hd
  rcases List.mem_append.mp hd with hd | hd
  · exact (h.fresh d hd).trans (Nat.lt_succ_self _)
  · rw [List.mem_singleton.mp hd, hc]
    exact Nat.lt_succ_self _

theorem Consistent.newRoute (node1 node2 : Cell) (label : String) :
    (newRoute page node1 node2 label).Consistent where
  registry := h.registry.trans (by rw [boxes_newRoute])
  names := by
    rw [boxes_newRoute]
    exact h.names
  ids := h.ids_append rfl
  fresh := h.fresh_append rfl

theorem Consistent.addBox {name : String} (hname : ∀ b ∈ page.boxes, b.name ≠ name) (text : String)
    (position : Position) : (page.addBox name text position).Consistent where
  registry := by
    rw [boxes_addBox, List.map_append, ← h.registry]
    rfl
  names := by
    rw [boxes_addBox, List.map_append]
    refine List.nodup_append.mpr ⟨h.names, List.nodup_singleton _, fun a ha b hb => ?_⟩
    obtain ⟨c, hc, rfl⟩ := List.mem_map.mp ha
    rw [List.map_singleton, List.mem_singleton] at hb
    exact hb ▸ hname c hc
  ids := h.ids_append rfl
  fresh := h.fresh_append rfl

theorem Consistent.getCell {b : Box} (hb : b ∈ page.boxes) : page.getCell b.id = some (.rect b) := by
  have hcell := mem_boxes.mp hb
  exact find?_of_nodup_map h.ids hcell

theorem Consistent.newNode_cases (getNodeDetail : String → Option String) (name : String)
    (position : Position) :
    (∃ b ∈ page.boxes, b.name = name ∧
      newNode getNodeDetail page name position = (page, some (.rect b))) ∨
    ((∀ b ∈ page.boxes, b.name ≠ name) ∧ ∃ text,
      newNode getNodeDetail page name position = (page.addBox name text position,
        some (.rect ⟨page.nextId, name, text, position⟩))) := by
  unfold newNode
  cases hfind : page.allNodes.find? fun node => node.1 = name with
  | some node =>
    have hname : node.1 = name := by simpa using List.find?_some hfind
    have hmem := List.mem_of_find?_eq_some hfind
    rw [h.registry] at hmem
    obtain ⟨b, hb, rfl⟩ := List.mem_map.mp hmem
    exact Or.inl ⟨b, hb, hname, congrArg (Prod.mk page) (h.getCell hb)⟩
  | none =>
    refine Or.inr ⟨fun b hb heq => ?_, _, rfl⟩
    have hmem : (b.name, b.id) ∈ page.allNodes := by
      rw [h.registry]
      exact List.mem_map_of_mem hb
    simpa [heq] using List.find?_eq_none.mp hfind _ hmem

theorem Consistent.newNode (getNodeDetail : String → Option String) (name : String)
    (position : Position) : (newNode getNodeDetail page name position).1.Consistent := by
  rcases h.newNode_cases getNodeDetail name position with ⟨b, -, -, heq⟩ | ⟨hname, text, heq⟩
  · rw [heq]
    exact h
  · rw [heq]
    exact h.addBox hname text position

/-- On the boxes with their positions, `newNode` is `insertNew`. -/
theorem Consistent.layout_newNode (getNodeDetail : String → Option String) (name : String)
    (position : Position) :
    (Topology.newNode getNodeDetail page name position).1.layout =
      insertNew page.layout (name, position) := by
  rcases h.newNode_cases getNodeDetail name position with ⟨b, hb, hname, heq⟩ | ⟨hname, text, heq⟩
  · have hmem : name ∈ keys page.layout := by
      rw [keys_layout, ← hname]
      exact List.mem_map_of_mem hb
    rw [heq, insertNew_of_mem hmem]
  · have hmem : name ∉ keys page.layout := by
      rw [keys_layout]
      intro hin
      obtain ⟨b, hb, hbname⟩ := List.mem_map.mp hin
      exact hname b hb hbname
    rw [heq, insertNew_of_notMem hmem]
    simp [layout]

end Steps
end Page
end NexFi.Topology
