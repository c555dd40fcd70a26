import NexFi.TopologyDrawing

/-!
# The page over a history of refreshes

A refresh clears the graph and the registry and draws a document, and between
refreshes the user moves boxes. The first loop places the addresses it visits up
to an entry without neighbours list, the second one adds links between placed
boxes, so a drawing leaves a sound page wherever it stops.
-/

namespace NexFi.Topology
open GoJson KeyedList

structure Fetched where
  vis : List VisEntry
  posData : VisPositionData
  getNodeDetail : String → Option String

inductive Event
  | refresh (fetched : Fetched)
  | move (id : ℕ) (position : Position)

def Cell.moved (id : ℕ) (position : Position) : Cell → Cell
  | .rect b => .rect (if b.id = id then { b with position := position } else b)
  | .link l => .link l

namespace Page

def redraw (page : Page) (f : Fetched) : Page × Bool :=
  drawNodesByJson f.getNodeDetail f.posData page.clear f.vis

def moveBox (page : Page) (id : ℕ) (position : Position) : Page :=
  { page with cells := page.cells.map (Cell.moved id position) }

def apply (page : Page) : Event → Page
  | .refresh f => (page.redraw f).1
  | .move id position => page.moveBox id position

def run (page : Page) (events : List Event) : Page := events.foldl apply page

def empty : Page := ⟨[], [], 0⟩

def Joined (page : Page) : Prop :=
  ∀ l ∈ page.links, (∃ b ∈ page.boxes, b.id = l.source) ∧ ∃ b ∈ page.boxes, b.id = l.target

structure Sound (page : Page) : Prop extends page.Consistent where
  joined : page.Joined

end Page

def Event.IsMove : Event → Prop
  | .refresh _ => False
  | .move _ _ => True

/-- The variables of a refresh after its first loop, and whether that came to its end. -/
def Page.firstLoop (page : Page) (f : Fetched) : Drawing × Bool :=
  drawEntries f.getNodeDetail f.posData ⟨page.clear, fun _ => none, positionGenerator⟩ f.vis

/-- The primaries and neighbours that the first loop meets. -/
def visited : List VisEntry → List Mac
  | [] => []
  | e :: vis =>
    match e.neighbors with
    | none => [e.primary]
    | some neighbors => e.primary :: (neighbors.map Neighbor.neighbor ++ visited vis)

def addressesIn (vis : List VisEntry) : List Mac :=
  vis.flatMap fun e => e.primary :: (e.neighbors.getD []).map Neighbor.neighbor

section Draw
variable (getNodeDetail : String → Option String) (posData : VisPositionData)

theorem drawEntries_eq (d : Drawing) (vis : List VisEntry) :
    drawEntries getNodeDetail posData d vis =
      (placeAll getNodeDetail posData d (visited vis), vis.all fun e => e.neighbors.isSome) := by
  induction vis generalizing d with
  | nil => rfl
  | cons e vis ih =>
    obtain ⟨primary, _ | neighbors⟩ := e
    · rfl
    · have hrest := ih (placeAll getNodeDetail posData (place getNodeDetail posData d primary)
        (neighbors.map Neighbor.neighbor))
      simp only [drawEntries, visited, List.all_cons, Option.isSome_some, Bool.true_and]
      rw [hrest]
      simp only [placeAll, List.foldl_cons, List.foldl_append]

end Draw

theorem visited_complete {vis : List VisEntry} (h : vis.all fun e => e.neighbors.isSome) :
    visited vis = addressesIn vis := by
  induction vis with
  | nil => rfl
  | cons e vis ih =>
    obtain ⟨primary, _ | neighbors⟩ := e
    · simp at h
    · have hrest : vis.all fun e => e.neighbors.isSome := by
        simpa only [List.all_cons, Option.isSome_some, Bool.true_and] using h
      simp only [visited, ih hrest, addressesIn, List.flatMap_cons, Option.getD_some,
        List.cons_append]

section Refresh
variable (page : Page) (f : Fetched)

theorem placed_firstLoop : (page.firstLoop f).1.Placed (visited f.vis) := by
  rw [Page.firstLoop, drawEntries_eq]
  exact placed_placeAll f.getNodeDetail f.posData (placed_start page _) (visited f.vis)

theorem links_firstLoop : (page.firstLoop f).1.page.links = [] := by
  rw [Page.firstLoop, drawEntries_eq]
  exact placeAll_links f.getNodeDetail f.posData page.consistent_clear (visited f.vis)

theorem redraw_cases :
    ((page.firstLoop f).2 = true ∧ page.redraw f =
      drawRoutes (page.firstLoop f).1.nodes (page.firstLoop f).1.page (neighborsOf f.vis)) ∨
    ((page.firstLoop f).2 = false ∧ page.redraw f = ((page.firstLoop f).1.page, false)) := by
  cases hfinished : (page.firstLoop f).2 with
  | true =>
    refine Or.inl ⟨rfl, ?_⟩
    rw [Page.firstLoop] at hfinished
    simp only [Page.redraw, drawNodesByJson, hfinished, if_true, Page.firstLoop]
  | false =>
    refine Or.inr ⟨rfl, ?_⟩
    rw [Page.firstLoop] at hfinished
    simp [Page.redraw, drawNodesByJson, hfinished, Page.firstLoop]

theorem boxes_redraw : (page.redraw f).1.boxes = (page.firstLoop f).1.page.boxes := by
  rcases redraw_cases page f with ⟨-, heq⟩ | ⟨-, heq⟩
  · rw [heq, drawRoutes_boxes]
  · rw [heq]

end Refresh

theorem joined_newRoute {page : Page} (h : page.Joined) {b₁ b₂ : Box} (h₁ : b₁ ∈ page.boxes)
    (h₂ : b₂ ∈ page.boxes) (label : String) :
    (newRoute page (.rect b₁) (.rect b₂) label).Joined := by
  intro l hl
  rw [Page.links_newRoute, List.mem_append, List.mem_singleton] at hl
  rw [Page.boxes_newRoute]
  cases hl with
  | inl hold => exact h l hold
  | inr hnew =>
    subst hnew
    exact ⟨⟨b₁, h₁, rfl⟩, ⟨b₂, h₂, rfl⟩⟩

theorem joined_drawRoutes {nodes : Mac → Option Cell} {page : Page}
    (hnodes : ∀ mac c, nodes mac = some c → ∃ b ∈ page.boxes, c = .rect b) (h : page.Joined)
    (rest : List Neighbor) : (drawRoutes nodes page rest).1.Joined := by
  induction rest generalizing page with
  | nil => exact h
  | cons n rest ih =>
    by_cases hn : Joinable nodes n
    · obtain ⟨c₁, c₂, h₁, h₂, heq⟩ := drawRoutes_joinable nodes hn page rest
      obtain ⟨b₁, hb₁, rfl⟩ := hnodes _ _ h₁
      obtain ⟨b₂, hb₂, rfl⟩ := hnodes _ _ h₂
      rw [heq]
      apply ih
      · intro mac c hc
        rw [Page.boxes_newRoute]
        exact hnodes mac c hc
      · exact joined_newRoute h hb₁ hb₂ n.metric
    · rw [drawRoutes_stopped nodes hn]
      exact h

/-- A refresh leaves a sound page, from whatever page it starts and wherever it stops. -/
theorem sound_redraw (page : Page) (f : Fetched) : (page.redraw f).1.Sound := by
  have hplaced := placed_firstLoop page f
  have hjoined : (page.firstLoop f).1.page.Joined := by
    intro l hl
    rw [links_firstLoop] at hl
    cases hl
  rcases redraw_cases page f with ⟨-, heq⟩ | ⟨-, heq⟩
  · rw [heq]
    refine ⟨drawRoutes_consistent _ hplaced.consistent _, joined_drawRoutes ?_ hjoined _⟩
    intro mac c hc
    obtain ⟨b, hb, -, hrect⟩ := hplaced.box mac c hc
    exact ⟨b, hb, hrect⟩
  · rw [heq]
    exact ⟨hplaced.consistent, hjoined⟩

section Move
variable (id : ℕ) (position : Position)

theorem Cell.id_moved (c : Cell) : (c.moved id position).id = c.id := by
  cases c with
  | rect b =>
    simp only [Cell.moved, Cell.id]
    split_ifs <;> rfl
  | link l => rfl

theorem boxes_moveBox (page : Page) :
    (page.moveBox id position).boxes =
      page.boxes.map fun b => if b.id = id then { b with position := position } else b := by
  rw [Page.boxes, Page.boxes, Page.moveBox, List.filterMap_map, List.map_filterMap]
  refine congrArg (List.filterMap · page.cells) (funext fun c => ?_)
  cases c <;> rfl

theorem links_moveBox (page : Page) : (page.moveBox id position).links = page.links := by
  rw [Page.links, Page.links, Page.moveBox, List.filterMap_map]
  refine congrArg (List.filterMap · page.cells) (funext fun c => ?_)
  cases c <;> rfl

theorem map_boxes_moveBox (page : Page) :
    (page.moveBox id position).boxes.map (fun b => (b.name, b.id)) =
      page.boxes.map fun b => (b.name, b.id) := by
  rw [boxes_moveBox, List.map_map]
  refine List.map_congr_left fun b _ => ?_
  simp only [Function.comp_apply]
  split_ifs <;> rfl

theorem sound_moveBox {page : Page} (h : page.Sound) : (page.moveBox id position).Sound := by
  have hcells : (page.moveBox id position).cells.map Cell.id = page.cells.map Cell.id := by
    rw [Page.moveBox, List.map_map]
    exact List.map_congr_left fun c _ => Cell.id_moved id position c
  have hboxes := map_boxes_moveBox id position page
  have hbox : ∀ b ∈ page.boxes, ∃ b' ∈ (page.moveBox id position).boxes, b'.id = b.id := by
    intro b hb
    have hmem : (b.name, b.id) ∈ (page.moveBox id position).boxes.map fun b => (b.name, b.id) := by
      rw [hboxes]
      exact List.mem_map_of_mem hb
    obtain ⟨b', hb', heq⟩ := List.mem_map.mp hmem
    exact ⟨b', hb', congrArg Prod.snd heq⟩
  refine ⟨⟨h.registry.trans hboxes.symm, ?_, hcells ▸ h.ids, ?_⟩, ?_⟩
  · have hnames := congrArg (List.map Prod.fst) hboxes
    rw [List.map_map, List.map_map] at hnames
    have hold := h.names
    rwa [show (page.moveBox id position).boxes.map Box.name = page.boxes.map Box.name from hnames]
  · intro c hc
    obtain ⟨d, hd, rfl⟩ := List.mem_map.mp hc
    rw [Cell.id_moved]
    exact h.fresh d hd
  · intro l hl
    rw [links_moveBox] at hl
    obtain ⟨⟨b₁, hb₁, hsource⟩, ⟨b₂, hb₂, htarget⟩⟩ := h.joined l hl
    obtain ⟨b₁', hb₁', hid₁⟩ := hbox b₁ hb₁
    obtain ⟨b₂', hb₂', hid₂⟩ := hbox b₂ hb₂
    exact ⟨⟨b₁', hb₁', hid₁.trans hsource⟩, ⟨b₂', hb₂', hid₂.trans htarget⟩⟩

end Move

theorem sound_apply {page : Page} (h : page.Sound) (event : Event) : (page.apply event).Sound := by
  cases event with
  | refresh f => exact sound_redraw page f
  | move id position => exact sound_moveBox id position h

theorem sound_run {page : Page} (h : page.Sound) (events : List Event) :
    (page.run events).Sound := by
  induction events generalizing page with
  | nil => exact h
  | cons event events ih => exact ih (sound_apply h event)

theorem sound_empty : Page.empty.Sound := by
  refine ⟨Page.consistent_clear Page.empty, fun l hl => ?_⟩
  cases hl

theorem Page.Consistent.ids_boxes {page : Page} (h : page.Consistent) :
    (page.boxes.map Box.id).Nodup := by
  have hsub : (page.boxes.map Box.id).Sublist (page.cells.map Cell.id) := by
    rw [Page.boxes]
    induction page.cells with
    | nil => exact .slnil
    | cons c cells ih =>
      cases c with
      | rect b => exact ih.cons_cons b.id
      | link l => exact ih.cons l.id
  exact hsub.nodup h.ids

theorem layout_redraw (page : Page) {f : Fetched} (h : f.vis.all fun e => e.neighbors.isSome) :
    (page.redraw f).1.layout =
      insertAll [] (placings f.posData positionGenerator (addressesIn f.vis)) := by
  rw [Page.layout, boxes_redraw, Page.firstLoop, drawEntries_eq, visited_complete h]
  exact placeAll_layout f.getNodeDetail f.posData page.consistent_clear (addressesIn f.vis)

theorem allNodes_redraw (page : Page) {f : Fetched} (h : (page.firstLoop f).2 = true)
    (name : String) :
    name ∈ (page.redraw f).1.allNodes.map Prod.fst ↔ name ∈ (addressesIn f.vis).map Mac.text := by
  have hcomplete : f.vis.all fun e => e.neighbors.isSome := by
    rw [Page.firstLoop, drawEntries_eq] at h
    exact h
  have hnames : (page.redraw f).1.allNodes.map Prod.fst = keys (page.redraw f).1.layout := by
    rw [(sound_redraw page f).registry, List.map_map, Page.keys_layout]
    rfl
  rw [hnames, layout_redraw page hcomplete, mem_keys_insertAll, keys_placings]
  exact or_iff_right List.not_mem_nil

theorem allNodes_moves (page : Page) {moves : List Event} (h : ∀ event ∈ moves, event.IsMove) :
    (page.run moves).allNodes = page.allNodes := by
  induction moves generalizing page with
  | nil => rfl
  | cons event moves ih =>
    have hmove := h event List.mem_cons_self
    have hrest := ih (page.apply event) fun e he => h e (List.mem_cons_of_mem event he)
    cases event with
    | refresh f => cases hmove
    | move id position => exact hrest

/-- After any history the registry and the graph are in step, and since a
drawing that finished its first loop the registry has the document's addresses. -/
theorem history_in_step (events : List Event) :
    let page := Page.empty.run events
    (page.allNodes.map Prod.fst).Nodup ∧
    page.allNodes = page.boxes.map (fun b => (b.name, b.id)) ∧ (page.boxes.map Box.id).Nodup ∧
    (∀ l ∈ page.links, (∃ b ∈ page.boxes, b.id = l.source) ∧ ∃ b ∈ page.boxes, b.id = l.target) ∧
    ∀ before f moves, events = before ++ Event.refresh f :: moves →
      (∀ event ∈ moves, event.IsMove) → ((Page.empty.run before).firstLoop f).2 = true →
      ∀ name, name ∈ page.allNodes.map Prod.fst ↔ ∃ mac ∈ addressesIn f.vis, mac.text = name := by
  intro page
  have hsound : page.Sound := sound_run sound_empty events
  refine ⟨?_, hsound.registry, hsound.ids_boxes, hsound.joined, ?_⟩
  · have hnames := hsound.names
    rw [hsound.registry, List.map_map]
    exact hnames
  · rintro before f moves rfl hmoves hloop name
    have hpage : page = ((Page.empty.run before).redraw f).1.run moves := by
      simp only [page, Page.run, List.foldl_append, List.foldl_cons]
      rfl
    rw [hpage, allNodes_moves _ hmoves, allNodes_redraw _ hloop]
    exact List.mem_map

end NexFi.Topology
