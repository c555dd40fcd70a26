import Mathlib.Data.List.Perm.Basic
import NexFi.TopologyHistory
import NexFi.TopologySlots

/-!
# The order of the document

A saved position does not depend on what was placed before, so with a position
for every address the boxes stand where they were saved, and there is one link
between named boxes for every record. Both sides of that are the same for every
order of the entries and of the records in them.
-/

namespace NexFi.Topology
open GoJson KeyedList

/-- An entry that has its neighbours list. -/
structure ListedEntry where
  primary : Mac
  neighbors : List Neighbor

def ListedEntry.toVisEntry (e : ListedEntry) : VisEntry := ⟨e.primary, some e.neighbors⟩

def ListedEntry.addresses (e : ListedEntry) : List Mac :=
  e.primary :: e.neighbors.map Neighbor.neighbor

/-- The entries in another order, each with its records in another order. -/
def Reordered (doc₁ doc₂ : List ListedEntry) : Prop :=
  ∃ mid, doc₁.Perm mid ∧ List.Forall₂ (fun e₁ e₂ : ListedEntry =>
    e₁.primary = e₂.primary ∧ e₁.neighbors.Perm e₂.neighbors) mid doc₂

namespace Page

def positionAt (page : Page) (name : String) : Option Position :=
  (page.boxes.find? fun b => b.name = name).map Box.position

def nameOf (page : Page) (id : ℕ) : Option String :=
  (page.boxes.find? fun b => b.id = id).map Box.name

/-- The links with the names of their boxes. -/
def routes (page : Page) : List (Option String × Option String × String) :=
  page.links.map fun l => (page.nameOf l.source, page.nameOf l.target, l.label)

end Page

theorem Reordered.flatMap {β : Type} {doc₁ doc₂ : List ListedEntry} (h : Reordered doc₁ doc₂)
    {f : ListedEntry → List β}
    (hf : ∀ e₁ e₂ : ListedEntry, e₁.primary = e₂.primary → e₁.neighbors.Perm e₂.neighbors →
      (f e₁).Perm (f e₂)) : (doc₁.flatMap f).Perm (doc₂.flatMap f) := by
  obtain ⟨mid, hperm, hsame⟩ := h
  have hentries := hsame.imp fun e₁ e₂ he => hf e₁ e₂ he.1 he.2
  refine (hperm.flatMap_right f).trans (List.Perm.flatten_congr ?_)
  rwa [List.forall₂_map_left_iff, List.forall₂_map_right_iff]

theorem Reordered.records {doc₁ doc₂ : List ListedEntry} (h : Reordered doc₁ doc₂) :
    (doc₁.flatMap ListedEntry.neighbors).Perm (doc₂.flatMap ListedEntry.neighbors) :=
  h.flatMap fun _ _ _ hneighbors => hneighbors

theorem Reordered.addresses {doc₁ doc₂ : List ListedEntry} (h : Reordered doc₁ doc₂) :
    (doc₁.flatMap ListedEntry.addresses).Perm (doc₂.flatMap ListedEntry.addresses) := by
  refine h.flatMap fun e₁ e₂ hprimary hneighbors => ?_
  rw [ListedEntry.addresses, ListedEntry.addresses, hprimary]
  exact (hneighbors.map Neighbor.neighbor).cons e₂.primary

section Listed
variable (doc : List ListedEntry)

theorem addressesIn_listed :
    addressesIn (doc.map ListedEntry.toVisEntry) = doc.flatMap ListedEntry.addresses := by
  rw [addressesIn, List.flatMap_map]
  rfl

theorem neighborsOf_listed :
    neighborsOf (doc.map ListedEntry.toVisEntry) = doc.flatMap ListedEntry.neighbors := by
  rw [neighborsOf, List.flatMap_map]
  rfl

theorem all_listed : (doc.map ListedEntry.toVisEntry).all fun e => e.neighbors.isSome := by
  simp [ListedEntry.toVisEntry]

end Listed

theorem nameOf_node (page : Page) (f : Fetched) {mac : Mac} {c : Cell} (hc : (page.firstLoop f).1.nodes mac = some c) :
    (page.redraw f).1.nameOf c.id = some mac.text := by
  obtain ⟨b, hb, hname, rfl⟩ := (placed_firstLoop page f).box mac c hc
  rw [← boxes_redraw] at hb
  have hids := (sound_redraw page f).ids_boxes
  have hfind : ((page.redraw f).1.boxes.find? fun b' => b'.id = b.id) = some b :=
    find?_of_nodup_map hids hb
  rw [Page.nameOf, Cell.id, hfind, Option.map_some, hname]

section Saved
variable (page : Page) {f : Fetched} (hlists : f.vis.all fun e => e.neighbors.isSome)
include hlists

theorem positionAt_redraw (hsaved : ∀ mac ∈ addressesIn f.vis,
    (getSavedPosition mac.text f.posData).isSome) (mac : Mac) :
    (page.redraw f).1.positionAt mac.text =
      if mac ∈ addressesIn f.vis then getSavedPosition mac.text f.posData else none := by
  have hfind : (page.redraw f).1.positionAt mac.text =
      ((page.redraw f).1.layout.find? fun p => p.1 = mac.text).map Prod.snd := by
    rw [Page.positionAt, Page.layout, List.find?_map, Option.map_map]
    rfl
  rw [hfind, layout_redraw page hlists, find?_insertAll, List.nil_append]
  split_ifs with hmac
  · obtain ⟨saved, hpos⟩ := Option.isSome_iff_exists.mp (hsaved mac hmac)
    rw [find?_placings f.posData hmac, positionOf, hpos]
    rfl
  · rw [Option.map_eq_none_iff, List.find?_eq_none]
    intro p hp hname
    have hkey : p.1 ∈ keys (placings f.posData positionGenerator (addressesIn f.vis)) :=
      List.mem_map_of_mem hp
    rw [keys_placings] at hkey
    obtain ⟨other, hother, htext⟩ := List.mem_map.mp hkey
    have hsame : other = mac := Mac.text_injective (htext.trans (by simpa using hname))
    exact hmac (hsame ▸ hother)

theorem nodes_firstLoop {mac : Mac} : ((page.firstLoop f).1.nodes mac).isSome ↔
    mac ∈ addressesIn f.vis := by
  have hplaced := placed_firstLoop page f
  rw [visited_complete hlists] at hplaced
  exact hplaced.known mac

theorem redraw_listed : page.redraw f =
    drawRoutes (page.firstLoop f).1.nodes (page.firstLoop f).1.page (neighborsOf f.vis) := by
  have hfinished : (page.firstLoop f).2 = true := by
    rw [Page.firstLoop, drawEntries_eq]
    exact hlists
  rcases redraw_cases page f with ⟨-, heq⟩ | ⟨hstopped, -⟩
  · exact heq
  · rw [hfinished] at hstopped
    cases hstopped

section Routers
variable (hrouters : ∀ n ∈ neighborsOf f.vis, n.router ∈ addressesIn f.vis)
include hrouters

theorem joinable_listed : ∀ n ∈ neighborsOf f.vis, Joinable (page.firstLoop f).1.nodes n := by
  intro n hn
  obtain ⟨e, he, hne⟩ := List.mem_flatMap.mp hn
  have hneighbor : n.neighbor ∈ addressesIn f.vis :=
    List.mem_flatMap.mpr ⟨e, he, List.mem_cons_of_mem _ (List.mem_map_of_mem hne)⟩
  rw [Joinable, nodes_firstLoop page hlists, nodes_firstLoop page hlists]
  exact ⟨hrouters n hn, hneighbor⟩

theorem routes_redraw :
    (page.redraw f).1.routes =
      (neighborsOf f.vis).map fun n => (some n.router.text, some n.neighbor.text, n.metric) := by
  obtain ⟨ls, hls, hconnects⟩ := drawRoutes_links _ (page.firstLoop f).1.page
    (joinable_listed page hlists hrouters)
  have hlinks : (page.redraw f).1.links = ls := by
    rw [redraw_listed page hlists, hls, links_firstLoop, List.nil_append]
  rw [Page.routes, hlinks, ← List.forall₂_eq_eq_eq, List.forall₂_map_left_iff,
    List.forall₂_map_right_iff]
  refine hconnects.imp fun l n hln => ?_
  obtain ⟨⟨c₁, h₁, hsource⟩, ⟨c₂, h₂, htarget⟩, hlabel⟩ := hln
  rw [← hsource, ← htarget, hlabel, nameOf_node page f h₁, nameOf_node page f h₂]

end Routers

end Saved

/-- The graph that a document leaves, drawn on a cleared page. -/
def picture (getNodeDetail : String → Option String) (posData : VisPositionData) (page : Page)
    (doc : List ListedEntry) : Page :=
  (drawNodesByJson getNodeDetail posData page.clear (doc.map ListedEntry.toVisEntry)).1

section Picture
variable (getNodeDetail : String → Option String) {posData : VisPositionData} (page : Page)
  {doc : List ListedEntry}

theorem positionAt_picture (hsaved : ∀ mac ∈ doc.flatMap ListedEntry.addresses,
    (getSavedPosition mac.text posData).isSome) (mac : Mac) :
    (picture getNodeDetail posData page doc).positionAt mac.text =
      if mac ∈ doc.flatMap ListedEntry.addresses then getSavedPosition mac.text posData
      else none := by
  rw [← addressesIn_listed] at hsaved ⊢
  exact positionAt_redraw page (f := ⟨doc.map ListedEntry.toVisEntry, posData, getNodeDetail⟩)
    (all_listed doc) hsaved mac

theorem routes_picture (hrouters : ∀ n ∈ doc.flatMap ListedEntry.neighbors,
    n.router ∈ doc.flatMap ListedEntry.addresses) :
    (picture getNodeDetail posData page doc).routes =
      (doc.flatMap ListedEntry.neighbors).map fun n =>
        (some n.router.text, some n.neighbor.text, n.metric) := by
  rw [← addressesIn_listed, ← neighborsOf_listed] at hrouters
  rw [← neighborsOf_listed]
  exact routes_redraw page (f := ⟨doc.map ListedEntry.toVisEntry, posData, getNodeDetail⟩)
    (all_listed doc) hrouters

end Picture

/-- With a saved position for every address and a box for every router, two
orders of a document give the same picture. -/
theorem picture_any_order (doc₁ doc₂ : List ListedEntry) (h : Reordered doc₁ doc₂)
    (posData : VisPositionData) (hsaved : ∀ mac ∈ doc₁.flatMap ListedEntry.addresses,
      (getSavedPosition mac.text posData).isSome)
    (hrouters : ∀ n ∈ doc₁.flatMap ListedEntry.neighbors,
      n.router ∈ doc₁.flatMap ListedEntry.addresses)
    (getNodeDetail₁ getNodeDetail₂ : String → Option String) (page₁ page₂ : Page) :
    (∀ mac : Mac, (picture getNodeDetail₁ posData page₁ doc₁).positionAt mac.text =
      (picture getNodeDetail₂ posData page₂ doc₂).positionAt mac.text) ∧
    (picture getNodeDetail₁ posData page₁ doc₁).routes.Perm
      (picture getNodeDetail₂ posData page₂ doc₂).routes := by
  have hmem : ∀ mac, mac ∈ doc₁.flatMap ListedEntry.addresses ↔
      mac ∈ doc₂.flatMap ListedEntry.addresses := fun mac => h.addresses.mem_iff
  have hsaved₂ : ∀ mac ∈ doc₂.flatMap ListedEntry.addresses,
      (getSavedPosition mac.text posData).isSome :=
    fun mac hmac => hsaved mac ((hmem mac).mpr hmac)
  have hrouters₂ : ∀ n ∈ doc₂.flatMap ListedEntry.neighbors,
      n.router ∈ doc₂.flatMap ListedEntry.addresses :=
    fun n hn => (hmem n.router).mp (hrouters n (h.records.mem_iff.mpr hn))
  refine ⟨fun mac => ?_, ?_⟩
  · rw [positionAt_picture getNodeDetail₁ page₁ hsaved, positionAt_picture getNodeDetail₂ page₂ hsaved₂]
    simp only [hmem]
  · rw [routes_picture getNodeDetail₁ page₁ hrouters, routes_picture getNodeDetail₂ page₂ hrouters₂]
    exact h.records.map _

def savedAB : VisPositionData := ⟨some [⟨macA.text, ⟨300, 80⟩⟩, ⟨macB.text, ⟨50, 50⟩⟩]⟩

def heard (router neighbor : Mac) : Neighbor := ⟨router, neighbor, "1.000"⟩

theorem picture_any_order_swapped :
    (∀ mac : Mac, (picture (fun _ => none) savedAB Page.empty
        [⟨macA, [heard macA macB]⟩, ⟨macB, [heard macB macA, heard macB macB]⟩]).positionAt mac.text =
      (picture (fun _ => none) savedAB Page.empty
        [⟨macB, [heard macB macB, heard macB macA]⟩, ⟨macA, [heard macA macB]⟩]).positionAt mac.text) ∧
    (picture (fun _ => none) savedAB Page.empty
      [⟨macA, [heard macA macB]⟩, ⟨macB, [heard macB macA, heard macB macB]⟩]).routes.Perm
      (picture (fun _ => none) savedAB Page.empty
        [⟨macB, [heard macB macB, heard macB macA]⟩, ⟨macA, [heard macA macB]⟩]).routes := by
  refine picture_any_order _ _ ⟨_, List.Perm.swap _ _ _, ?_⟩ savedAB (by decide) (by decide) _ _ _ _
  exact .cons ⟨rfl, List.Perm.swap _ _ _⟩ (.cons ⟨rfl, .refl _⟩ .nil)

end NexFi.Topology
