import Mathlib.Data.List.Forall2
import NexFi.VisDocument
import NexFi.VisTables

/-!
# From the tables of the driver to the document

Each neighbour that the driver reaches directly is told of with the interface towards
it, and each client. The interfaces that are published are those of these neighbours,
so there is none without an entry, and what is printed of a node is complete.
-/

namespace NexFi.VisServer
open FieldText VisTables VisData VisDocument JsonText AlfredPacket AlfredServer AlfredClient

section Links
variable (getIfMac : List Char → Option EtherAddr)

/-- A neighbour that is reached directly. -/
structure Link where
  iface : List Char
  neighbor : EtherAddr
  tq : UInt8

def linkOf (o : OrigNode) : Option Link :=
  o.router.bind fun r =>
    if r.tqAvg = 0 then none
    else if o.orig = r.addr ∧ (getIfMac r.ifIncoming.text).isSome then
      some ⟨r.ifIncoming.text, o.orig, r.tqAvg⟩
    else none

def links (nodes : List OrigNode) : List Link := nodes.filterMap (linkOf getIfMac)

/-- The entry is about the link: its index is the place of the interface. -/
def EntryOf (ifaceList : List IfaceEntry) (e : VisEntry) (k : Link) : Prop :=
  e.mac = k.neighbor ∧ e.qual = k.tq ∧
    ∃ n, e.ifindex = UInt8.ofNat n ∧ (ifaceList[n]?).map IfaceEntry.name = some k.iface

/-- The lists tell of the links, and of nothing else. -/
structure Tells (l : Lists) (found : List Link) : Prop where
  names : (l.ifaceList.map IfaceEntry.name).Nodup
  macs : ∀ i ∈ l.ifaceList, i.name.length < 16 ∧ getIfMac i.name = some i.mac
  used : ∀ i ∈ l.ifaceList, ∃ k ∈ found, k.iface = i.name
  entries : List.Forall₂ (EntryOf l.ifaceList) l.entryList found

theorem tells_nil : Tells getIfMac ⟨[], []⟩ [] :=
  ⟨List.nodup_nil, fun _ h => absurd h List.not_mem_nil, fun _ h => absurd h List.not_mem_nil, .nil⟩

end Links

section Index
variable {getIfMac : List Char → Option EtherAddr} {ifaceList : List IfaceEntry} {ifname : List Char}

theorem EntryOf.mono {ifaceList' : List IfaceEntry} {e : VisEntry} {k : Link}
    (hbegins : ifaceList <+: ifaceList') (h : EntryOf ifaceList e k) : EntryOf ifaceList' e k := by
  obtain ⟨hmac, hqual, n, hindex, hname⟩ := h
  refine ⟨hmac, hqual, n, hindex, ?_⟩
  obtain ⟨i, hi, hiname⟩ := Option.map_eq_some_iff.mp hname
  obtain ⟨tail, rfl⟩ := hbegins
  obtain ⟨hlt, -⟩ := List.getElem?_eq_some_iff.mp hi
  rw [List.getElem?_append_left hlt, hi]
  exact congrArg some hiname

theorem getIfIndex_known (hnames : ∀ i ∈ ifaceList, i.name.length < 16) (hshort : ifname.length < 16)
    {i : IfaceEntry} (hi : i ∈ ifaceList) (hname : i.name = ifname) :
    ∃ n, getIfIndex getIfMac ifaceList ifname = some (n, ifaceList) ∧
      (ifaceList[n]?).map IfaceEntry.name = some ifname := by
  have hsame : ∀ j ∈ ifaceList, j.name.take 256 = ifname.take 256 ↔ j.name = ifname := by
    intro j hj
    have hlength := hnames j hj
    rw [List.take_of_length_le (by omega), List.take_of_length_le (by omega)]
  obtain ⟨n, hn⟩ : ∃ n, ifaceList.findIdx? (fun i => i.name.take 256 = ifname.take 256) = some n := by
    rw [← Option.isSome_iff_exists, List.findIdx?_isSome, List.any_eq_true]
    exact ⟨i, hi, by simpa using (hsame i hi).mpr hname⟩
  obtain ⟨hlt, hfound, -⟩ := List.findIdx?_eq_some_iff_getElem.mp hn
  refine ⟨n, by rw [getIfIndex, hn], ?_⟩
  rw [List.getElem?_eq_getElem hlt, Option.map_some]
  exact congrArg some ((hsame _ (List.getElem_mem hlt)).mp (by simpa using hfound))

theorem getIfIndex_new (hnames : ∀ i ∈ ifaceList, i.name.length < 16) (hshort : ifname.length < 16)
    (hnew : ∀ i ∈ ifaceList, i.name ≠ ifname) : getIfIndex getIfMac ifaceList ifname =
      (getIfMac ifname).map fun mac => (ifaceList.length, ifaceList ++ [⟨ifname, mac⟩]) := by
  have hnone : ifaceList.findIdx? (fun i => i.name.take 256 = ifname.take 256) = none := by
    rw [List.findIdx?_eq_none_iff]
    intro j hj
    have hlength := hnames j hj
    rw [List.take_of_length_le (by omega), List.take_of_length_le (by omega)]
    simpa using hnew j hj
  rw [getIfIndex, hnone]
  simp only [List.take_of_length_le (Nat.le_of_lt_succ hshort),
    List.take_of_length_le (show ifname.length ≤ 255 by omega)]

end Index

section Originators
variable {getIfMac : List Char → Option EtherAddr} {l : Lists} {found : List Link}

theorem macText_inj {a b : EtherAddr} : macText a = macText b ↔ a = b := by
  constructor
  · intro h
    have hread := congrArg strToMac h
    rwa [strToMac_macText, strToMac_macText, Option.some_inj] at hread
  · exact fun h => congrArg macText h

/-- What a line of the table does to the lists. -/
theorem parseOrigLine_origLine (l : Lists) (o : OrigNode) {r : Router} (hr : r.tqAvg ≠ 0) :
    parseOrigLine getIfMac l (origLine o r) =
      if o.orig = r.addr then
        (getIfIndex getIfMac l.ifaceList r.ifIncoming.text).elim l fun p =>
          ⟨p.2, l.entryList ++ [⟨o.orig, UInt8.ofNat p.1, r.tqAvg⟩]⟩
      else l := by
  obtain ⟨seen, rest, hfields⟩ := fields_origLine o r
  have htq := r.tqAvg.toNat_lt
  have hpos : r.tqAvg.toNat ≠ 0 := fun h => hr (UInt8.toNat_inj.mp h)
  have hvalue : (strtol (decimal r.tqAvg.toNat)).bmod (2 ^ 32) = r.tqAvg.toNat := by
    rw [strtol_decimal (by omega)]
    exact Int.bmod_eq_of_le (by omega) (by omega)
  have hrange : ¬ ((r.tqAvg.toNat : ℤ) < 1 ∨ 255 < (r.tqAvg.toNat : ℤ)) := by omega
  have hqual : UInt8.ofNat (r.tqAvg.toNat : ℤ).toNat = r.tqAvg := by
    rw [Int.toNat_natCast, UInt8.ofNat_toNat]
  unfold parseOrigLine
  rw [hfields]
  simp only [macText_inj, hvalue, if_neg hrange, strToMac_macText, hqual]
  cases getIfIndex getIfMac l.ifaceList r.ifIncoming.text <;> rfl

/-- An entry is added at the end, for an interface that may be new. -/
theorem Tells.add {k : Link} {ifaceList : List IfaceEntry} (h : Tells getIfMac l found) {n : ℕ}
    (hbegins : l.ifaceList <+: ifaceList) (hnames : (ifaceList.map IfaceEntry.name).Nodup)
    (hmacs : ∀ i ∈ ifaceList, i.name.length < 16 ∧ getIfMac i.name = some i.mac)
    (hused : ∀ i ∈ ifaceList, i ∈ l.ifaceList ∨ i.name = k.iface)
    (hn : (ifaceList[n]?).map IfaceEntry.name = some k.iface) :
    Tells getIfMac ⟨ifaceList, l.entryList ++ [⟨k.neighbor, UInt8.ofNat n, k.tq⟩]⟩ (found ++ [k]) := by
  refine ⟨hnames, hmacs, fun i hi => ?_, ?_⟩
  · rcases hused i hi with hold | hnew
    · obtain ⟨k', hk', heq⟩ := h.used i hold
      exact ⟨k', List.mem_append_left _ hk', heq⟩
    · exact ⟨k, List.mem_append_right _ (List.mem_singleton_self k), hnew.symm⟩
  · exact List.rel_append (h.entries.imp fun e k' hk' => hk'.mono hbegins)
      (.cons ⟨rfl, rfl, n, rfl, hn⟩ .nil)

theorem tells_link (h : Tells getIfMac l found) {k : Link} (hshort : k.iface.length < 16) {mac : EtherAddr}
    (hmac : getIfMac k.iface = some mac) : ∃ n ifaceList,
      getIfIndex getIfMac l.ifaceList k.iface = some (n, ifaceList) ∧
      Tells getIfMac ⟨ifaceList, l.entryList ++ [⟨k.neighbor, UInt8.ofNat n, k.tq⟩]⟩ (found ++ [k]) := by
  have hlengths : ∀ i ∈ l.ifaceList, i.name.length < 16 := fun i hi => (h.macs i hi).1
  by_cases hknown : ∃ i ∈ l.ifaceList, i.name = k.iface
  · obtain ⟨i, hi, hname⟩ := hknown
    obtain ⟨n, hindex, hn⟩ := @getIfIndex_known getIfMac _ _ hlengths hshort i hi hname
    exact ⟨n, l.ifaceList, hindex,
      h.add (List.prefix_refl _) h.names h.macs (fun _ hi => .inl hi) hn⟩
  · have hnew : ∀ i ∈ l.ifaceList, i.name ≠ k.iface := fun i hi hname => hknown ⟨i, hi, hname⟩
    have hindex : getIfIndex getIfMac l.ifaceList k.iface = _ := getIfIndex_new hlengths hshort hnew
    rw [hmac, Option.map_some] at hindex
    refine ⟨l.ifaceList.length, l.ifaceList ++ [⟨k.iface, mac⟩], hindex,
      h.add (List.prefix_append _ _) ?_ (fun i hi => ?_) (fun i hi => ?_) ?_⟩
    · rw [List.map_append, List.map_singleton, List.nodup_append_comm]
      refine List.nodup_cons.mpr ⟨fun hmem => ?_, h.names⟩
      obtain ⟨i, hi, hname⟩ := List.mem_map.mp hmem
      exact hnew i hi hname
    · rcases List.mem_append.mp hi with hold | hlast
      · exact h.macs i hold
      · rw [List.mem_singleton.mp hlast]
        exact ⟨hshort, hmac⟩
    · rcases List.mem_append.mp hi with hold | hlast
      · exact .inl hold
      · rw [List.mem_singleton.mp hlast]
        exact .inr rfl
    · rw [List.getElem?_append_right (Nat.le_refl _), Nat.sub_self]
      rfl

theorem getIfIndex_none (h : Tells getIfMac l found) {ifname : List Char} (hshort : ifname.length < 16)
    (hmac : getIfMac ifname = none) : getIfIndex getIfMac l.ifaceList ifname = none := by
  have hnew : ∀ i ∈ l.ifaceList, i.name ≠ ifname := by
    rintro i hi rfl
    rw [(h.macs i hi).2] at hmac
    cases hmac
  rw [getIfIndex_new (fun i hi => (h.macs i hi).1) hshort hnew, hmac]
  rfl

theorem tells_origLine (h : Tells getIfMac l found) {o : OrigNode} {r : Router} (hrouter : o.router = some r)
    (hr : r.tqAvg ≠ 0) :
    Tells getIfMac (parseOrigLine getIfMac l (origLine o r)) (found ++ (linkOf getIfMac o).toList) := by
  have hshort := r.ifIncoming.short
  rw [parseOrigLine_origLine l o hr, linkOf, hrouter, Option.bind_some, if_neg hr]
  by_cases hdirect : o.orig = r.addr
  · rw [if_pos hdirect]
    cases hmac : getIfMac r.ifIncoming.text with
    | none =>
      rw [getIfIndex_none h hshort hmac, if_neg (by simp)]
      simpa using h
    | some mac =>
      obtain ⟨n, ifaceList, hindex, htells⟩ := tells_link h (k := ⟨_, o.orig, r.tqAvg⟩) hshort hmac
      rw [hindex, if_pos ⟨hdirect, rfl⟩]
      exact htells
  · rw [if_neg hdirect, if_neg fun hboth => hdirect hboth.1]
    simpa using h

theorem tells_origLines (h : Tells getIfMac l found) (nodes : List OrigNode) :
    Tells getIfMac ((origLines nodes).foldl (parseOrigLine getIfMac) l) (found ++ links getIfMac nodes) := by
  induction nodes generalizing l found with
  | nil =>
    rw [show links getIfMac [] = [] from rfl, List.append_nil]
    exact h
  | cons o nodes ih =>
    have hlinks : links getIfMac (o :: nodes) = (linkOf getIfMac o).toList ++ links getIfMac nodes := by
      simp only [links, List.filterMap_cons]
      cases linkOf getIfMac o <;> rfl
    rw [hlinks, ← List.append_assoc]
    cases hrouter : o.router with
    | none =>
      have hnone : linkOf getIfMac o = none := by rw [linkOf, hrouter]; rfl
      have hlines : origLines (o :: nodes) = origLines nodes := by simp [origLines, hrouter]
      rw [hnone, hlines, Option.toList_none, List.append_nil]
      exact ih h
    | some r =>
      by_cases hr : r.tqAvg = 0
      · have hnone : linkOf getIfMac o = none := by
          rw [linkOf, hrouter, Option.bind_some, if_pos hr]
        have hlines : origLines (o :: nodes) = origLines nodes := by simp [origLines, hrouter, hr]
        rw [hnone, hlines, Option.toList_none, List.append_nil]
        exact ih h
      · have hlines : origLines (o :: nodes) = origLine o r :: origLines nodes := by
          simp [origLines, hrouter, hr]
        rw [hlines, List.foldl_cons]
        exact ih (tells_origLine h hrouter hr)

theorem parseOrigLine_other {line dest seen tq neigh iface : List Char} {rest : List (List Char)} (l : Lists)
    (hfields : fields origDelimiter line = dest :: seen :: tq :: neigh :: iface :: rest)
    (hne : dest ≠ neigh) : parseOrigLine getIfMac l line = l := by
  unfold parseOrigLine
  rw [hfields]
  simp only [if_neg hne]

theorem parseOrigLine_noNodes (l : Lists) :
    parseOrigLine getIfMac l "No batman nodes in range ...".toList = l := by
  have hfields : fields origDelimiter "No batman nodes in range ...".toList =
      [['N', 'o'], ['b', 'a', 't', 'm', 'a', 'n'], ['n', 'o', 'd', 'e', 's'], ['i', 'n'],
        ['r', 'a', 'n', 'g', 'e'], ['.', '.', '.']] := by
    decide +kernel
  exact parseOrigLine_other l hfields (by decide)

theorem tells_originators (mesh : MeshIface) (nodes : List OrigNode) :
    Tells getIfMac (parseOrigList getIfMac ⟨[], []⟩ (some (origSeqPrintText mesh nodes)))
      (links getIfMac nodes) := by
  have htells := tells_origLines (tells_nil getIfMac) nodes
  rw [parseOrigList, lines_origSeqPrintText]
  split_ifs with hempty
  · rw [List.isEmpty_iff.mp hempty] at htells
    rw [List.foldl_cons, parseOrigLine_noNodes]
    exact htells
  · exact htells

end Originators

section Clients
variable {getIfMac : List Char → Option EtherAddr}

def clientEntry (t : LocalEntry) : VisEntry := ⟨t.addr, 255, 0⟩

theorem parseTranstableLine_localLine (l : Lists) (t : LocalEntry) :
    parseTranstableLine l (localLine t) = { l with entryList := l.entryList ++ [clientEntry t] } := by
  obtain ⟨rest, hfields⟩ := fields_localLine t
  unfold parseTranstableLine
  rw [hfields]
  simp only [List.getElem?_cons_succ, List.getElem?_cons_zero, Option.bind_some, strToMac_macText]
  rfl

theorem parseTranstableLine_columns (l : Lists) : parseTranstableLine l localColumns = l := by
  have hfield : ((fields transtableDelimiter localColumns)[1]?).bind strToMac = none := by
    decide +kernel
  unfold parseTranstableLine
  rw [hfield]

theorem parseTranstable_localLines (l : Lists) (entries : List LocalEntry) :
    (entries.map localLine).foldl parseTranstableLine l =
      { l with entryList := l.entryList ++ entries.map clientEntry } := by
  induction entries generalizing l with
  | nil => simp
  | cons t entries ih =>
    rw [List.map_cons, List.foldl_cons, parseTranstableLine_localLine, ih]
    simp

theorem parseTranstableLocal_driver (l : Lists) (mesh : MeshIface) (ttvn : UInt8)
    (entries : List LocalEntry) :
    parseTranstableLocal l (some (localSeqPrintText mesh ttvn entries)) =
      { l with entryList := l.entryList ++ entries.map clientEntry } := by
  rw [parseTranstableLocal, lines_localSeqPrintText, List.foldl_cons, parseTranstableLine_columns,
    parseTranstable_localLines]

end Clients

section Interfaces
variable {getIfMac : List Char → Option EtherAddr}

/-- The status of the interface is what the driver shows, if there is one. -/
def FromDriver (i : SysIface) : Prop := ∀ status, i.ifaceStatus = some status →
  status = [] ∨ ∃ st, status = showIfaceStatus st

/-- The driver ends the status with a newline, and the comparison does not expect one: no interface
is put into the list for being active. -/
theorem registerInterfaces_driver (interface : List Char) (l : Lists) {dir : List SysIface}
    (hdir : ∀ i ∈ dir, FromDriver i) : registerInterfaces getIfMac interface l dir = l := by
  have hone : ∀ i ∈ dir, ∀ l, registerInterface getIfMac interface l i = l := by
    intro i hi l
    have hstatus : ∀ status, i.ifaceStatus = some status → status ≠ "active".toList := by
      intro status hsome
      rcases hdir i hi status hsome with rfl | ⟨st, rfl⟩
      · decide
      · cases st <;> decide
    unfold registerInterface
    cases i.meshIface with
    | none => rfl
    | some content =>
      cases hsome : i.ifaceStatus with
      | none => simp only [ite_self]
      | some status => simp only [if_neg (hstatus status hsome), ite_self]
  rw [registerInterfaces]
  induction dir with
  | nil => rfl
  | cons i dir ih =>
    rw [List.foldl_cons, hone i List.mem_cons_self]
    exact ih (fun j hj => hdir j (List.mem_cons_of_mem i hj)) fun j hj => hone j (List.mem_cons_of_mem i hj)

/-- What a node publishes: its links, and then its clients. -/
theorem visUpdateData_driver (mesh : MeshIface) (nodes : List OrigNode) (ttvn : UInt8)
    (clients : List LocalEntry) {dir : List SysIface} (hdir : ∀ i ∈ dir, FromDriver i) :
    ∃ l, Tells getIfMac l (links getIfMac nodes) ∧
      visUpdateData getIfMac mesh.name.text dir (some (origSeqPrintText mesh nodes))
          (some (localSeqPrintText mesh ttvn clients)) =
        { l with entryList := l.entryList ++ clients.map clientEntry } := by
  refine ⟨_, tells_originators mesh nodes, ?_⟩
  rw [visUpdateData, registerInterfaces_driver _ _ hdir, parseTranstableLocal_driver]

end Interfaces

section Values
variable {getIfMac : List Char → Option EtherAddr} {l : Lists} {found : List Link}

/-- The address of an interface that is in the list. -/
def addressOf (getIfMac : List Char → Option EtherAddr) (iface : List Char) : EtherAddr :=
  (getIfMac iface).getD noMac

def linkValue (getIfMac : List Char → Option EtherAddr) (k : Link) : Value :=
  .obj [("router".toList, .str (macText (addressOf getIfMac k.iface))),
    ("neighbor".toList, .str (macText k.neighbor)), ("metric".toList, .str (metricText k.tq))]

theorem Tells.macs_eq (h : Tells getIfMac l found) : l.ifaceList.map IfaceEntry.mac =
    (l.ifaceList.map IfaceEntry.name).map (addressOf getIfMac) := by
  rw [List.map_map]
  refine List.map_congr_left fun i hi => ?_
  rw [Function.comp_apply, addressOf, (h.macs i hi).2]
  rfl

theorem exists_entry {es : List VisEntry} {ks : List Link} {R : VisEntry → Link → Prop}
    (h : List.Forall₂ R es ks) {k : Link} (hk : k ∈ ks) : ∃ e, R e k := by
  induction h with
  | nil => cases hk
  | @cons e k' es ks he _ ih =>
    rcases List.mem_cons.mp hk with rfl | hk
    · exact ⟨e, he⟩
    · exact ih hk

theorem Tells.mem_names (h : Tells getIfMac l found) (name : List Char) :
    name ∈ l.ifaceList.map IfaceEntry.name ↔ ∃ k ∈ found, k.iface = name := by
  constructor
  · intro hmem
    obtain ⟨i, hi, rfl⟩ := List.mem_map.mp hmem
    exact h.used i hi
  · rintro ⟨k, hk, rfl⟩
    obtain ⟨e, -, -, n, -, hn⟩ := exists_entry h.entries hk
    obtain ⟨i, hi, hname⟩ := Option.map_eq_some_iff.mp hn
    exact List.mem_map.mpr ⟨i, List.mem_of_getElem? hi, hname⟩

/-- What the entry of a link is printed as. -/
theorem EntryOf.shown (h : Tells getIfMac l found) (hroom : l.ifaceList.length ≤ 254) {e : VisEntry} {k : Link}
    (he : EntryOf l.ifaceList e k) (htq : k.tq ≠ 0) :
    isNeighbor (l.ifaceList.map IfaceEntry.mac) e = true ∧ isClient e = false ∧
      neighborValue (l.ifaceList.map IfaceEntry.mac) e = linkValue getIfMac k := by
  obtain ⟨hmac, hqual, n, hindex, hn⟩ := he
  obtain ⟨i, hi, hname⟩ := Option.map_eq_some_iff.mp hn
  obtain ⟨hlt, -⟩ := List.getElem?_eq_some_iff.mp hi
  have hnat : e.ifindex.toNat = n := by
    rw [hindex, UInt8.toNat_ofNat', Nat.mod_eq_of_lt (by omega)]
  have hne : e.ifindex ≠ 255 := by
    intro heq
    rw [heq] at hnat
    change 255 = n at hnat
    omega
  have haddress : macOf (l.ifaceList.map IfaceEntry.mac) e.ifindex.toNat = addressOf getIfMac k.iface := by
    have hget : (l.ifaceList.map IfaceEntry.mac)[n]? = some i.mac := by
      rw [List.getElem?_map, hi]
      rfl
    rw [hnat, macOf, List.getD_eq_getElem?_getD, hget, ← hname, addressOf,
      (h.macs i (List.mem_of_getElem? hi)).2]
  refine ⟨?_, ?_, ?_⟩
  · simp [isNeighbor, hne, hqual, htq, hnat, hlt]
  · simp [isClient, hne]
  · rw [neighborValue, haddress, hmac, hqual, linkValue]

theorem links_shown (h : Tells getIfMac l found) (hroom : l.ifaceList.length ≤ 254)
    {es : List VisEntry} {ks : List Link} (hes : List.Forall₂ (EntryOf l.ifaceList) es ks)
    (htq : ∀ k ∈ ks, k.tq ≠ 0) :
    (es.filter (isNeighbor (l.ifaceList.map IfaceEntry.mac))).map
        (neighborValue (l.ifaceList.map IfaceEntry.mac)) = ks.map (linkValue getIfMac) ∧
      es.filter isClient = [] := by
  induction hes with
  | nil => exact ⟨rfl, rfl⟩
  | @cons e k es ks he hes ih =>
    obtain ⟨hneighbor, hclient, hvalue⟩ := he.shown h hroom (htq k List.mem_cons_self)
    obtain ⟨hrest, hnone⟩ := ih fun k' hk' => htq k' (List.mem_cons_of_mem k hk')
    rw [List.filter_cons_of_pos hneighbor, List.map_cons, hvalue, hrest,
      List.filter_cons_of_neg (by rw [hclient]; exact Bool.false_ne_true), hnone]
    exact ⟨rfl, rfl⟩

theorem clients_shown (ifaces : List EtherAddr) (ts : List LocalEntry) :
    (ts.map clientEntry).filter (isNeighbor ifaces) = [] ∧
      (ts.map clientEntry).filter isClient = ts.map clientEntry := by
  constructor
  · refine List.filter_eq_nil_iff.mpr fun e he => ?_
    obtain ⟨t, -, rfl⟩ := List.mem_map.mp he
    simp [isNeighbor, clientEntry]
  · refine List.filter_eq_self.mpr fun e he => ?_
    obtain ⟨t, -, rfl⟩ := List.mem_map.mp he
    rfl

end Values

section Published

/-- A node with its driver, which knows no more interfaces than a data set has room for. -/
structure Driver where
  getIfMac : List Char → Option EtherAddr
  mesh : MeshIface
  nodes : List OrigNode
  ttvn : UInt8
  clients : List LocalEntry
  dir : List SysIface
  shows : ∀ i ∈ dir, FromDriver i
  few : ∃ names : List (List Char), names.length ≤ 254 ∧ ∀ k ∈ links getIfMac nodes, k.iface ∈ names

namespace Driver
variable (s : Driver)

def lists : Lists :=
  visUpdateData s.getIfMac s.mesh.name.text s.dir (some (origSeqPrintText s.mesh s.nodes))
    (some (localSeqPrintText s.mesh s.ttvn s.clients))

def visData : Bytes := compileVisData (s.lists.ifaceList.map IfaceEntry.mac) s.lists.entryList

def found : List Link := links s.getIfMac s.nodes

/-- What a document has to say of the node, whose interfaces are given in the order of their use. -/
def nodeValue (ifaces : List (List Char)) : Value :=
  .obj (primaryMember (ifaces.map (addressOf s.getIfMac)) ::
    secondaryMembers (ifaces.map (addressOf s.getIfMac)) ++
    [("neighbors".toList, .arr ((s.found.take 255).map (linkValue s.getIfMac))),
      ("clients".toList, .arr ((s.clients.take (255 - s.found.length)).map fun t => .str (macText t.addr)))])

theorem found_tq : ∀ k ∈ s.found, k.tq ≠ 0 := by
  intro k hk
  obtain ⟨o, -, hlink⟩ := List.mem_filterMap.mp hk
  obtain ⟨r, -, hsome⟩ := Option.bind_eq_some_iff.mp hlink
  split_ifs at hsome with htq hdirect
  rw [← Option.some.inj hsome]
  exact htq

theorem lists_tell : ∃ l, Tells s.getIfMac l s.found ∧ l.ifaceList.length ≤ 254 ∧
    s.lists = { l with entryList := l.entryList ++ s.clients.map clientEntry } := by
  obtain ⟨l, htells, hlists⟩ := visUpdateData_driver s.mesh s.nodes s.ttvn s.clients s.shows
  obtain ⟨names, hroom, hnames⟩ := s.few
  refine ⟨l, htells, ?_, hlists⟩
  have hsub : l.ifaceList.map IfaceEntry.name ⊆ names := by
    intro name hname
    obtain ⟨k, hk, rfl⟩ := (htells.mem_names name).mp hname
    exact hnames k hk
  have hlength := (htells.names.subperm hsub).length_le
  rw [List.length_map] at hlength
  omega

theorem dataValue_visData {l : Lists} (htells : Tells s.getIfMac l s.found) (hroom : l.ifaceList.length ≤ 254)
    (hlists : s.lists = { l with entryList := l.entryList ++ s.clients.map clientEntry }) :
    dataValue s.visData = s.nodeValue (l.ifaceList.map IfaceEntry.name) := by
  have hmacs : (l.ifaceList.map IfaceEntry.mac).take 254 = l.ifaceList.map IfaceEntry.mac :=
    List.take_of_length_le (by rwa [List.length_map])
  have hlength := htells.entries.length_eq
  have hentries : (l.entryList ++ s.clients.map clientEntry).take 255 =
      l.entryList.take 255 ++ (s.clients.take (255 - s.found.length)).map clientEntry := by
    rw [List.take_append, hlength, List.map_take]
  obtain ⟨hneighbors, hnone⟩ := links_shown htells hroom (List.forall₂_take 255 htells.entries)
    fun k hk => s.found_tq k (List.mem_of_mem_take hk)
  obtain ⟨hno, hclients⟩ := clients_shown (l.ifaceList.map IfaceEntry.mac)
    (s.clients.take (255 - s.found.length))
  rw [dataValue, visData, ifaces_compileVisData, visEntries_compileVisData, hlists]
  simp only [hmacs, hentries]
  rw [entryValue, List.filter_append, List.filter_append, List.map_append, List.map_append, hneighbors,
    hnone, hno, hclients, List.map_map, htells.macs_eq]
  simp only [List.map_nil, List.append_nil, List.nil_append]
  rfl

/-- Every node publishes a data set that is printed to its end. It is shown exactly when the node has a
neighbour, and then it has the interfaces, the neighbours with the interface towards them, and the clients
that the tables of the driver have, up to the 255 entries of a data set. -/
theorem tables_in_document : Whole s.visData ∧ (Shown s.visData ↔ s.found ≠ []) ∧
    ∃ ifaces : List (List Char), ifaces.Nodup ∧
      (∀ name, name ∈ ifaces ↔ ∃ k ∈ s.found, k.iface = name) ∧
      dataValue s.visData = s.nodeValue ifaces := by
  obtain ⟨l, htells, hroom, hlists⟩ := s.lists_tell
  have hlength := htells.entries.length_eq
  have hiface : ifaceN s.visData = l.ifaceList.length := by
    rw [visData, ifaceN_compileVisData, hlists, List.length_take, List.length_map]
    exact Nat.min_eq_right hroom
  have hsize : s.visData.length = visDataSize s.visData := length_compileVisData _ _
  have hempty : l.ifaceList.length ≠ 0 ↔ s.found ≠ [] := by
    constructor
    · intro hne hnil
      obtain ⟨i, hi⟩ := List.exists_mem_of_length_pos (Nat.pos_of_ne_zero hne)
      obtain ⟨k, hk, -⟩ := htells.used i hi
      rw [hnil] at hk
      cases hk
    · intro hne hzero
      obtain ⟨k, hk⟩ := List.exists_mem_of_ne_nil _ hne
      have hmem := (htells.mem_names k.iface).mpr ⟨k, hk, rfl⟩
      rw [List.eq_nil_of_length_eq_zero hzero] at hmem
      cases hmem
  have hshown : Shown s.visData ↔ s.found ≠ [] := by
    rw [Shown, hiface, hempty]
    exact and_iff_right hsize
  refine ⟨⟨?_, fun hsh => ?_⟩, hshown, l.ifaceList.map IfaceEntry.name, htells.names, htells.mem_names,
    s.dataValue_visData htells hroom hlists⟩
  · rw [hsize, visDataSize]
    omega
  · have hne := List.length_pos_iff.mpr (hshown.mp hsh)
    rw [visData, entriesN_compileVisData, hlists, List.length_take, List.length_append]
    omega

end Driver

end Published

end NexFi.VisServer
