import NexFi.AlfredMesh
import NexFi.VisLines
import NexFi.VisServer

/-!
# From the daemon to the document

A client that prints the vis data is answered with the data sets that its daemon
holds. If these are what the nodes have published, it prints a document, and every
node with a neighbour has its place there.
-/

namespace NexFi.VisMesh
open VisServer VisTables FieldText VisData VisLines VisDocument JsonText AlfredPacket AlfredServer AlfredData AlfredClient AlfredMesh ChainTable

section Answers
variable {env : Env} {g : Globals}

/-- The data sets that a client for vis data is answered with. -/
def held (g : Globals) : List Block :=
  (g.dataHash.entries.filter fun d => d.data.type = visPackettype).map Dataset.data

/-- What the client prints, in the format of its choice. -/
def visGetData (ops : VisPrintOps) (env : Env) (g : Globals) (sock : ℕ) (id : UInt16) : List Char :=
  visReadAnswer ops (written sock (step env g (.client sock (requestPacket visPackettype id))).2)

theorem visGetData_eq (hg : Running g) (hhere : Here g) (hwrites : g.dataHash.entries.length ≤ env.writes)
    (ops : VisPrintOps) (sock : ℕ) (id : UInt16) :
    visGetData ops env g sock id = VisDocument.printed ops (dataOf (held g)) := by
  have hall : (requested g visPackettype).length ≤ env.writes := by
    rw [requested_eq hg]
    exact (List.length_filter_le _ _).trans hwrites
  have hheld : (numbered (requested g visPackettype)).map Prod.snd = held g := by
    rw [snd_numbered, requested_eq hg, held]
  rw [visGetData, step_request env sock id hhere, written_reply hall, visReadAnswer,
    visReadPackets_packets ops id (fun p hp => numbered_requested hp) (length_le_length_answer id _),
    hheld, VisDocument.printed]

/-- A document is printed exactly when all the data sets up to the first one of another version are
whole, and it is about those that are shown. -/
theorem document_printed (hg : Running g) (hhere : Here g)
    (hwrites : g.dataHash.entries.length ≤ env.writes) (sock : ℕ) (id : UInt16) :
    parse (visGetData visJsondocOps env g sock id) =
      if ∀ data ∈ dataOf (held g), Whole data then some (docValue (shownValues (dataOf (held g)))) else none := by
  rw [visGetData_eq hg hhere hwrites, parse_printed]

/-- Lines can always be read, and tell of the data sets that are shown up to the first one that is too
short. -/
theorem lines_printed (hg : Running g) (hhere : Here g) (hwrites : g.dataHash.entries.length ≤ env.writes)
    (sock : ℕ) (id : UInt16) : (fields isNewline (visGetData visJsonOps env g sock id)).map parse =
      (lineValues ((dataOf (held g)).takeWhile fun data => 8 ≤ data.length)).map some := by
  rw [visGetData_eq hg hhere hwrites, (prints_lines _).parse]

end Answers

section Published
variable {env : Env} {g : Globals}

/-- The block is what some node has published. -/
def Published (b : Block) : Prop := b.version = visPacketversion ∧ ∃ s : Driver, b.data = s.visData

/-- All the vis data that a daemon holds is what nodes have published. -/
def AllPublished (g : Globals) : Prop := ∀ b ∈ held g, Published b

theorem dataOf_published {bs : List Block} (h : ∀ b ∈ bs, b.version = visPacketversion) :
    dataOf bs = bs.map Block.data := by
  rw [dataOf, List.takeWhile_eq_self_iff.mpr fun b hb => by simpa using h b hb]

/-- The entry of a node in a document. -/
def IsEntryOf (s : Driver) (v : Value) : Prop :=
  ∃ ifaces : List (List Char), ifaces.Nodup ∧ (∀ name, name ∈ ifaces ↔ ∃ k ∈ s.found, k.iface = name) ∧
    v = s.nodeValue ifaces

theorem published_document (hg : Running g) (hhere : Here g)
    (hwrites : g.dataHash.entries.length ≤ env.writes) (sock : ℕ) (id : UInt16) (hall : AllPublished g) :
    ∃ items, parse (visGetData visJsondocOps env g sock id) = some (docValue items) ∧
      (∀ b ∈ held g, ∀ s : Driver, b.data = s.visData → s.found ≠ [] → ∃ v ∈ items, IsEntryOf s v) ∧
      ∀ v ∈ items, ∃ b ∈ held g, ∃ s : Driver, b.data = s.visData ∧ s.found ≠ [] ∧ IsEntryOf s v := by
  have hdata := dataOf_published fun b hb => (hall b hb).1
  have hwhole : ∀ data ∈ dataOf (held g), Whole data := by
    intro data hmem
    rw [hdata] at hmem
    obtain ⟨b, hb, rfl⟩ := List.mem_map.mp hmem
    obtain ⟨-, s, hs⟩ := hall b hb
    rw [hs]
    exact s.tables_in_document.1
  refine ⟨shownValues (dataOf (held g)), ?_, fun b hb s hs hfound => ?_, fun v hv => ?_⟩
  · rw [document_printed hg hhere hwrites, if_pos hwhole]
  · obtain ⟨-, hshown, ifaces, hnodup, hmem, hvalue⟩ := s.tables_in_document
    refine ⟨dataValue b.data, ?_, ifaces, hnodup, hmem, by rw [hs, hvalue]⟩
    rw [hdata, shownValues]
    refine List.mem_map_of_mem (List.mem_filter.mpr ⟨List.mem_map_of_mem hb, ?_⟩)
    rw [hs]
    exact decide_eq_true (hshown.mpr hfound)
  · rw [hdata, shownValues] at hv
    obtain ⟨data, hfilter, rfl⟩ := List.mem_map.mp hv
    obtain ⟨hdatas, hsh⟩ := List.mem_filter.mp hfilter
    obtain ⟨b, hb, rfl⟩ := List.mem_map.mp hdatas
    obtain ⟨-, s, hs⟩ := hall b hb
    obtain ⟨-, hshown, ifaces, hnodup, hmem, hvalue⟩ := s.tables_in_document
    rw [hs] at hsh ⊢
    exact ⟨b, hb, s, hs, hshown.mp (of_decide_eq_true hsh), ifaces, hnodup, hmem, hvalue⟩

/-- The packet that a node hands to its daemon. -/
def publish (s : Driver) (id : UInt16) : Bytes :=
  visPublishData id (s.lists.ifaceList.map IfaceEntry.mac) s.lists.entryList

/-- The data set that the daemon makes of it. -/
def publishedBlock (s : Driver) (hwaddr : EtherAddr) : Block :=
  { visBlock (s.lists.ifaceList.map IfaceEntry.mac) s.lists.entryList with source := hwaddr }

theorem fits_visBlock (ifaces : List EtherAddr) (entries : List VisEntry) : Fits (visBlock ifaces entries) := by
  have hlength := length_compileVisData_le ifaces entries
  change (compileVisData ifaces entries).length + 10 ≤ room
  unfold room maxPayload
  omega

theorem length_publish_le (s : Driver) (id : UInt16) : (publish s id).length ≤ maxPayload := by
  have hlength := length_compileVisData_le (s.lists.ifaceList.map IfaceEntry.mac) s.lists.entryList
  rw [publish, visPublishData, length_pushPacket]
  change 4 + (14 + (compileVisData _ _).length) ≤ maxPayload
  unfold maxPayload
  omega

theorem step_publish (env : Env) {i : Interface} (hinterface : firstInterface g = some i) (s : Driver)
    (sock : ℕ) (id : UInt16) : stepTo g (env, .client sock (publish s id)) =
      { g with dataHash := g.dataHash.put ⟨publishedBlock s i.hwaddr, env.now, .sourceLocal⟩ } := by
  have hempty : isValidEtherAddr noMac = false := by decide
  exact step_pushBlock env sock (id + 1) hinterface (fits_visBlock _ _) hempty

theorem publishedBlock_spec (s : Driver) (hwaddr : EtherAddr) :
    (publishedBlock s hwaddr).type = visPackettype ∧ (publishedBlock s hwaddr).data = s.visData :=
  ⟨rfl, rfl⟩

/-- What a node has published stays in the document that its own daemon is asked for, until vis data is
handed over again or it is too old. -/
theorem publish_then_shown (hg : Running g) {i : Interface} (hinterface : firstInterface g = some i)
    (env : Env) (sock : ℕ) (id : UInt16) (s : Driver) (hfound : s.found ≠ []) {xs : List (Env × Event)}
    (hxs : ∀ x ∈ xs, Readable x.2)
    (hclients : ∀ x ∈ xs, ∀ sock buf b, x.2 = .client sock buf → ReadsData buf b → b.type ≠ visPackettype)
    (hfresh : ∀ x ∈ xs, ∀ lost, x.2 = .round lost →
      expired x.1.now env.now alfredDataTimeout = false) {g' : Globals}
    (hg' : g' = run g ((env, .client sock (publish s id)) :: xs)) (hhere : Here g')
    (hall : AllPublished g') {env' : Env} (hwrites : g'.dataHash.entries.length ≤ env'.writes)
    (sock' : ℕ) (id' : UInt16) :
    ∃ items, parse (visGetData visJsondocOps env' g' sock' id') = some (docValue items) ∧
      ∃ v ∈ items, IsEntryOf s v := by
  have hstep := step_publish env hinterface s sock id
  obtain ⟨htype, hdata⟩ := publishedBlock_spec s i.hwaddr
  have hlength := length_publish_le s id
  generalize publishedBlock s i.hwaddr = b at hstep htype hdata
  generalize publish s id = buf at hstep hlength hg'
  have hset : (stepTo g (env, .client sock buf)).dataHash.find (blockKey b) =
      some ⟨b, env.now, .sourceLocal⟩ := by
    rw [hstep]
    exact Table.find_put_self _ _
  have hkept : g'.dataHash.find (blockKey b) = some ⟨b, env.now, .sourceLocal⟩ := by
    rw [hg']
    refine local_run_kept (d := ⟨b, env.now, .sourceLocal⟩) hset rfl ?_ hfresh
    rw [htype]
    exact hclients
  have hrunning : Running g' := by
    rw [hg']
    refine hg.run fun x hx => ?_
    rcases List.mem_cons.mp hx with rfl | hx
    · exact hlength
    · exact hxs x hx
  have hheld : b ∈ held g' := by
    refine List.mem_map.mpr ⟨⟨b, env.now, .sourceLocal⟩, ?_, rfl⟩
    rw [List.mem_filter, Table.mem_entries]
    exact ⟨hkept, decide_eq_true htype⟩
  obtain ⟨items, hparse, hentries, -⟩ :=
    published_document hrunning hhere hwrites sock' id' hall
  exact ⟨items, hparse, hentries b hheld s hdata hfound⟩

end Published

section Meshes
variable {N : Type} [DecidableEq N] {options : N → Options} {start : Timespec} {acts : List (Act N)}
    {m : Mesh N}

theorem running_mesh (hrun : MeshRun (meshInit options start) acts m)
    (hreadable : ∀ a ∈ acts, Readable a.event) (n : N) : Running (m.nodes n) := by
  induction hrun with
  | nil => exact ⟨options n, start, [], fun x hx => absurd hx List.not_mem_nil, rfl⟩
  | @snoc acts m a hrun hpossible ih =>
    have hbefore := ih fun a' ha' => hreadable a' (List.mem_append_left [a] ha')
    by_cases hn : n = a.node
    · subst hn
      rw [nodes_meshStep_self]
      have hlast : ∀ x ∈ [(a.env, a.event)], Readable x.2 := by
        intro x hx
        rw [List.mem_singleton.mp hx]
        exact hreadable a (by simp)
      exact hbefore.run hlast
    · rw [nodes_meshStep_of_ne m a hn]
      exact hbefore

/-- What clients hand over as vis data is what nodes publish. -/
def OnlyPublished (acts : List (Act N)) : Prop :=
  ∀ a ∈ acts, ∀ sock buf b, a.event = .client sock buf → ReadsData buf b → b.type = visPackettype →
    Published b

theorem allPublished_mesh (hrun : MeshRun (meshInit options start) acts m) (honly : OnlyPublished acts)
    (n : N) : AllPublished (m.nodes n) := by
  have hhanded : ∀ n' b, HandedAt (meshInit options start) acts n' b → b.type = visPackettype →
      Published b := by
    rintro n' b ⟨before, m', a, -, hprefix, -, sock, buf, c, interface, he, hread, -, -, hb⟩ htype
    have ha : a ∈ acts := hprefix.subset (List.mem_append_right before (List.mem_singleton_self a))
    have hc : c.type = visPackettype := by
      rw [hb] at htype
      exact htype
    have hpublished := honly a ha sock buf c he hread hc
    rw [hb]
    exact hpublished
  intro b hb
  obtain ⟨d, hd, rfl⟩ := List.mem_map.mp hb
  obtain ⟨hentry, htype⟩ := List.mem_filter.mp hd
  have hvis : d.data.type = visPackettype := of_decide_eq_true htype
  rcases ((meshOk_run hrun).nodes n).data _ d ((Table.mem_entries _).mp hentry) with
    ⟨-, hown⟩ | ⟨mac, -, -, n', hother⟩
  · exact hhanded n d.data hown hvis
  · exact hhanded n' d.data hother hvis

/-- In a mesh where nodes publish what their drivers know, every node that answers its own clients
prints a document, whatever has been lost, doubled or reordered. The document has an entry for every
data set that the node holds of a node with a neighbour, and no other. -/
theorem mesh_document (hrun : MeshRun (meshInit options start) acts m)
    (hreadable : ∀ a ∈ acts, Readable a.event) (honly : OnlyPublished acts) {n : N} (hhere : Here (m.nodes n))
    {env : Env} (hwrites : (m.nodes n).dataHash.entries.length ≤ env.writes) (sock : ℕ) (id : UInt16) :
    ∃ items, parse (visGetData visJsondocOps env (m.nodes n) sock id) = some (docValue items) ∧
      (∀ b ∈ held (m.nodes n), ∀ s : Driver, b.data = s.visData → s.found ≠ [] →
        ∃ v ∈ items, IsEntryOf s v) ∧
      ∀ v ∈ items, ∃ b ∈ held (m.nodes n), ∃ s : Driver, b.data = s.visData ∧ s.found ≠ [] ∧
        IsEntryOf s v :=
  published_document (running_mesh hrun hreadable n) hhere hwrites sock id (allPublished_mesh hrun honly n)

end Meshes

section Sample

theorem readsData_push {b c : Block} {id seqno : UInt16} (hfits : Fits b)
    (h : ReadsData (pushPacket id seqno b.bytes) c) : c = b := by
  obtain ⟨header, body, rest, htlv, -, hroom, hblock⟩ := h
  have hpush := takeTlv_pushPacket (b := b) id seqno []
  rw [List.append_nil, List.append_nil, htlv, Option.some_inj, Prod.mk.injEq] at hpush
  obtain ⟨rfl, rfl⟩ := hpush
  have hsize : b.data.length + 10 ≤ room := hfits
  have hlength : (UInt16.ofNat (14 + b.data.length)).toNat = 14 + b.data.length := by
    unfold room maxPayload at hsize
    rw [UInt16.toNat_ofNat', Nat.mod_eq_of_lt (by omega)]
  rw [hlength, List.take_of_length_le (length_pushBody id seqno).le] at hblock
  have hbytes : (htons id ++ (htons seqno ++ b.bytes)).drop 4 = b.bytes ++ [] := by
    rw [List.append_nil]
    rfl
  rw [hbytes, takeBlock_bytes, Option.some_inj, Prod.mk.injEq] at hblock
  exact hblock.1.symm

def sampleBat : IfName := ⟨['b', 'a', 't', '0'], by decide, field_of_all rfl rfl⟩

def sampleWlan : IfName := ⟨['w', 'l', 'a', 'n', '0'], by decide, field_of_all rfl rfl⟩

/-- A neighbour behind the only interface. -/
def sampleDriver : Driver where
  getIfMac _ := some (sampleAddress false)
  mesh := ⟨sampleBat, sampleWlan, sampleAddress false⟩
  nodes := [⟨sampleAddress true, 1230, some ⟨sampleAddress true, sampleWlan, 255⟩, []⟩]
  ttvn := 1
  clients := []
  dir := []
  shows := by simp
  few := ⟨[sampleWlan.text], by decide, by decide⟩

def samplePublish : Act Bool := ⟨false, sampleEnv, .client 4 (publish sampleDriver 0)⟩

def sampleOpened : Mesh Bool := meshStep sampleMesh (sampleOpen false)

def samplePublished : Mesh Bool := meshStep sampleOpened samplePublish

theorem sampleOpened_run : MeshRun sampleMesh ([] ++ [sampleOpen false]) sampleOpened :=
  MeshRun.nil.snoc fun _ _ _ he => by cases he

theorem samplePublished_run : MeshRun sampleMesh ([] ++ [sampleOpen false] ++ [samplePublish]) samplePublished :=
  sampleOpened_run.snoc fun _ _ _ he => by cases he

theorem samplePublish_only : OnlyPublished ([] ++ [sampleOpen false] ++ [samplePublish]) := by
  intro a ha sock buf b he hread _
  simp only [List.nil_append, List.cons_append, List.mem_cons, List.not_mem_nil, or_false] at ha
  rcases ha with rfl | rfl
  · cases he
  · cases he
    rw [readsData_push (fits_visBlock _ _) hread]
    exact ⟨rfl, sampleDriver, rfl⟩

theorem sampleOpened_readable : ∀ a ∈ [] ++ [sampleOpen false], Readable a.event := by
  intro a ha
  rw [List.mem_singleton.mp ha]
  trivial

theorem samplePublish_readable : ∀ a ∈ [] ++ [sampleOpen false] ++ [samplePublish], Readable a.event := by
  intro a ha
  rcases List.mem_append.mp ha with ha | ha
  · exact sampleOpened_readable a ha
  · rw [List.mem_singleton.mp ha]
    exact length_publish_le sampleDriver 0

def sampleGlobals : Globals := run (sampleOpened.nodes false) [(sampleEnv, .client 4 (publish sampleDriver 0))]

theorem samplePublished_nodes : samplePublished.nodes false = sampleGlobals :=
  nodes_meshStep_self sampleOpened samplePublish

theorem firstInterface_sampleOpened : ∃ i, firstInterface (sampleOpened.nodes false) = some i := ⟨_, rfl⟩

theorem here_sampleGlobals : Here sampleGlobals := by
  obtain ⟨i, hi⟩ := firstInterface_sampleOpened
  have hstep : sampleGlobals = _ := step_publish sampleEnv hi sampleDriver 4 0
  rw [hstep]
  exact .inl rfl

/-- All writes to the client succeed. -/
def sampleWriter : Env := { sampleReader with writes := sampleGlobals.dataHash.entries.length }

theorem writes_sampleWriter : sampleGlobals.dataHash.entries.length ≤ sampleWriter.writes := by
  rw [sampleWriter]

theorem document_printed_sample : parse (visGetData visJsondocOps sampleReader sampleHolder 5 3) =
    if ∀ data ∈ dataOf (held sampleHolder), Whole data then
      some (docValue (shownValues (dataOf (held sampleHolder)))) else none :=
  document_printed running_sampleHolder (.inl rfl) (by decide) 5 3

theorem lines_printed_sample :
    (fields isNewline (visGetData visJsonOps sampleReader sampleHolder 5 3)).map parse =
      (lineValues ((dataOf (held sampleHolder)).takeWhile fun data => 8 ≤ data.length)).map some :=
  lines_printed running_sampleHolder (.inl rfl) (by decide) 5 3

theorem publish_then_shown_sample :
    ∃ items, parse (visGetData visJsondocOps sampleWriter sampleGlobals 5 3) = some (docValue items) ∧
      ∃ v ∈ items, IsEntryOf sampleDriver v := by
  obtain ⟨i, hi⟩ := firstInterface_sampleOpened
  have hall : AllPublished sampleGlobals := by
    rw [← samplePublished_nodes]
    exact allPublished_mesh samplePublished_run samplePublish_only false
  have hfound : sampleDriver.found ≠ [] := by
    intro h
    cases h
  have hrun : sampleGlobals = run (sampleOpened.nodes false) [(sampleEnv, .client 4 (publish sampleDriver 0))] := by
    rw [sampleGlobals]
  exact publish_then_shown (running_mesh sampleOpened_run sampleOpened_readable false) hi sampleEnv 4 0
    sampleDriver hfound (fun x hx => absurd hx List.not_mem_nil) (fun x hx => absurd hx List.not_mem_nil)
    (fun x hx => absurd hx List.not_mem_nil) hrun here_sampleGlobals hall writes_sampleWriter 5 3

theorem mesh_document_sample :
    ∃ items, parse (visGetData visJsondocOps sampleWriter (samplePublished.nodes false) 5 3) =
        some (docValue items) ∧
      (∀ b ∈ held (samplePublished.nodes false), ∀ s : Driver, b.data = s.visData → s.found ≠ [] →
        ∃ v ∈ items, IsEntryOf s v) ∧
      ∀ v ∈ items, ∃ b ∈ held (samplePublished.nodes false), ∃ s : Driver, b.data = s.visData ∧
        s.found ≠ [] ∧ IsEntryOf s v := by
  have hhere : Here (samplePublished.nodes false) := by
    rw [samplePublished_nodes]
    exact here_sampleGlobals
  have hwrites : (samplePublished.nodes false).dataHash.entries.length ≤ sampleWriter.writes := by
    rw [samplePublished_nodes]
    exact writes_sampleWriter
  exact mesh_document samplePublished_run samplePublish_readable samplePublish_only hhere hwrites 5 3

end Sample

end NexFi.VisMesh
