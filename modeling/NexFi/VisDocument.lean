import NexFi.JsonText
import NexFi.VisData

/-!
# What is printed of the vis data

The data sets of all nodes are printed one after the other, in one of three formats.
A document has its closing brackets only at the end, so it is one only if every data
set that is begun comes to its end.
-/

namespace NexFi.VisDocument
open JsonText VisData AlfredPacket AlfredServer AlfredData AlfredClient

section Printing

/-- `255.0 / qual` in thousandths. Ties go to the even neighbour; they are the quotients that a float
holds exactly. -/
def thousandths (qual : ℕ) : ℕ :=
  if qual < 2 * (255000 % qual) ∨ 2 * (255000 % qual) = qual ∧ 255000 / qual % 2 = 1 then
    255000 / qual + 1
  else 255000 / qual

def decimals (n : ℕ) : List Char :=
  Nat.toDigits 10 (n / 1000) ++
    ['.', Nat.digitChar (n / 100 % 10), Nat.digitChar (n / 10 % 10), Nat.digitChar (n % 10)]

def metricText (qual : UInt8) : List Char := decimals (thousandths qual.toNat)

def quotedMac (mac : EtherAddr) : List Char := quoted (macText mac)

def macOf (ifaces : List EtherAddr) (i : ℕ) : EtherAddr := ifaces.getD i noMac

structure VisPrintOps where
  preamble : List Char
  interfaces : Bool → List EtherAddr → List Char
  entries : List VisEntry → List EtherAddr → List Char
  postamble : List Char

section Dot

def visDotInterfaces (ifaces : List EtherAddr) : List Char :=
  "\tsubgraph \"cluster_".toList ++ macText (macOf ifaces 0) ++ "\" \x7b\n".toList ++
    (ifaces.zipIdx.flatMap fun p => "\t\t".toList ++ quotedMac p.1 ++
      (if p.2 = 0 then [] else " [peripheries=2]".toList) ++ ['\n']) ++ "\t\x7d\n".toList

def visDotEntries (entries : List VisEntry) (ifaces : List EtherAddr) : List Char :=
  entries.flatMap fun e =>
    if e.ifindex = 255 then
      '\t' :: quotedMac (macOf ifaces 0) ++ " -> ".toList ++ quotedMac e.mac ++
        " [label=\"TT\"]\n".toList
    else if ifaces.length ≤ e.ifindex.toNat then []
    else if e.qual = 0 then []
    else
      '\t' :: quotedMac (macOf ifaces e.ifindex.toNat) ++ " -> ".toList ++ quotedMac e.mac ++
        " [label=".toList ++ quoted (metricText e.qual) ++ "]\n".toList

def visDotOps : VisPrintOps where
  preamble := "digraph \x7b\n".toList
  interfaces _ := visDotInterfaces
  entries := visDotEntries
  postamble := "\x7d\n".toList

end Dot

section Lines

def visJsonInterfaces (ifaces : List EtherAddr) : List Char :=
  "\x7b \"primary\" : ".toList ++ quotedMac (macOf ifaces 0) ++ " \x7d\n".toList ++
    (ifaces.drop 1).flatMap fun mac =>
      "\x7b \"secondary\" : ".toList ++ quotedMac mac ++ ", \"of\" : ".toList ++
        quotedMac (macOf ifaces 0) ++ " \x7d\n".toList

def visJsonEntries (entries : List VisEntry) (ifaces : List EtherAddr) : List Char :=
  entries.flatMap fun e =>
    if e.ifindex = 255 then
      "\x7b \"router\" : ".toList ++ quotedMac (macOf ifaces 0) ++ ", \"gateway\" : ".toList ++
        quotedMac e.mac ++ ", \"label\" : \"TT\" \x7d\n".toList
    else if ifaces.length ≤ e.ifindex.toNat then []
    else if e.qual = 0 then []
    else
      "\x7b \"router\" : ".toList ++ quotedMac (macOf ifaces e.ifindex.toNat) ++
        ", \"neighbor\" : ".toList ++ quotedMac e.mac ++ ", \"label\" : ".toList ++
        quoted (metricText e.qual) ++ " \x7d\n".toList

def visJsonOps : VisPrintOps where
  preamble := []
  interfaces _ := visJsonInterfaces
  entries := visJsonEntries
  postamble := []

end Lines

section Document

def secondaries : List EtherAddr → List Char
  | [] => []
  | [mac] => quotedMac mac
  | mac :: macs => quotedMac mac ++ ',' :: secondaries macs

/-- `first` is whether no data set has been printed. -/
def visJsondocInterfaces (first : Bool) (ifaces : List EtherAddr) : List Char :=
  (if first then [] else ",\n".toList) ++ "    \x7b \"primary\" : ".toList ++
    quotedMac (macOf ifaces 0) ++ ",\n".toList ++
    if 1 < ifaces.length then
      "      \"secondary\" : [ ".toList ++ secondaries (ifaces.drop 1) ++ "\n       ]".toList ++ ",\n".toList
    else []

def isNeighbor (ifaces : List EtherAddr) (e : VisEntry) : Bool :=
  e.ifindex ≠ 255 && e.ifindex.toNat < ifaces.length && e.qual ≠ 0

def isClient (e : VisEntry) : Bool := e.ifindex = 255

def neighborText (ifaces : List EtherAddr) (e : VisEntry) : List Char :=
  "         \x7b \"router\" : ".toList ++ quotedMac (macOf ifaces e.ifindex.toNat) ++ ",\n".toList ++
    "           \"neighbor\" : ".toList ++ quotedMac e.mac ++ ",\n".toList ++
    "           \"metric\" : ".toList ++ quoted (metricText e.qual) ++ " \x7d".toList

def clientText (e : VisEntry) : List Char := "        ".toList ++ quotedMac e.mac

def visJsondocEntries (entries : List VisEntry) (ifaces : List EtherAddr) : List Char :=
  "      \"neighbors\" : [\n".toList ++
    separated ",\n".toList true ((entries.filter (isNeighbor ifaces)).map (neighborText ifaces)) ++
    "\n      ]".toList ++ ",\n".toList ++ "      \"clients\" : [\n".toList ++
    separated ",\n".toList true ((entries.filter isClient).map clientText) ++
    "\n      ]\n".toList ++ "    \x7d".toList

def visJsondocOps : VisPrintOps where
  preamble := "\x7b\n".toList ++ "  \"source_version\" : \"2016.1\",\n".toList ++
    "  \"algorithm\" : 4,\n".toList ++ "  \"vis\" : [\n".toList
  interfaces := visJsondocInterfaces
  entries := visJsondocEntries
  postamble := "\n  ]\n".toList ++ "\x7d\n".toList

end Document

/-- What is printed of the packets, and whether they are gone through to the end. -/
def visReadPackets (ops : VisPrintOps) : ℕ → Bool → Bytes → Bytes → List Char × Bool
  | 0, _, _, _ => ([], true)
  | reads + 1, first, buf, answer =>
    match visReceiveAnswerPacket buf answer with
    | none => ([], true)
    | some (len, buf, answer) =>
      let visData := buf.drop 18
      if len < 8 then ([], false)
      else if len ≠ visDataSize visData then visReadPackets ops reads first buf answer
      else if ifaceN visData = 0 then visReadPackets ops reads first buf answer
      else
        let (text, ended) := visReadPackets ops reads false buf answer
        (ops.interfaces first (ifaces visData) ++
          (if entriesN visData = 0 then [] else ops.entries (visEntries visData) (ifaces visData)) ++ text,
          ended)

def visReadAnswer (ops : VisPrintOps) (answer : Bytes) : List Char :=
  let (text, ended) := visReadPackets ops answer.length true [] answer
  ops.preamble ++ text ++ if ended then ops.postamble else []

end Printing

section DataSets

/-- The data is as long as it says, and there is an interface to show. -/
def Shown (data : Bytes) : Prop := data.length = visDataSize data ∧ ifaceN data ≠ 0

instance (data : Bytes) : Decidable (Shown data) := inferInstanceAs (Decidable (_ ∧ _))

def dataText (ops : VisPrintOps) (first : Bool) (data : Bytes) : List Char :=
  ops.interfaces first (ifaces data) ++
    if entriesN data = 0 then [] else ops.entries (visEntries data) (ifaces data)

/-- What is printed of the data sets, which ends at one that is too short. -/
def printData (ops : VisPrintOps) : Bool → List Bytes → List Char × Bool
  | _, [] => ([], true)
  | first, data :: rest =>
    if data.length < 8 then ([], false)
    else if Shown data then
      (dataText ops first data ++ (printData ops false rest).1, (printData ops false rest).2)
    else printData ops first rest

def printed (ops : VisPrintOps) (datas : List Bytes) : List Char :=
  ops.preamble ++ (printData ops true datas).1 ++ if (printData ops true datas).2 then ops.postamble else []

/-- The data up to the first block of another version. -/
def dataOf (bs : List Block) : List Bytes :=
  (bs.takeWhile fun b => b.version = visPacketversion).map Block.data

theorem visReadPackets_push (ops : VisPrintOps) (id seqno : UInt16) {b : Block} (hfits : Fits b)
    (htype : b.type = visPackettype) (hversion : b.version = visPacketversion) (n : ℕ) (first : Bool)
    (buf rest : Bytes) : ∃ buf', visReadPackets ops (n + 1) first buf (pushPacket id seqno b.bytes ++ rest) =
      if b.data.length < 8 then ([], false)
      else if Shown b.data then
        (dataText ops first b.data ++ (visReadPackets ops n false buf' rest).1,
          (visReadPackets ops n false buf' rest).2)
      else visReadPackets ops n first buf' rest := by
  refine ⟨pushPacket id seqno b.bytes ++ buf.drop (4 + (14 + b.data.length)), ?_⟩
  rw [visReadPackets, visReceiveAnswerPacket_push id seqno rest hfits htype, if_pos hversion]
  simp only [drop_pushPacket]
  by_cases hshort : b.data.length < 8
  · rw [if_pos hshort, if_pos hshort]
  · have hlong : 8 ≤ b.data.length := Nat.not_lt.mp hshort
    rw [if_neg hshort, if_neg hshort]
    simp only [visDataSize_append _ hlong, ifaceN_append _ hlong, entriesN_append _ hlong]
    by_cases hsize : b.data.length = visDataSize b.data
    · simp only [ifaces_append _ hsize.ge, visEntries_append _ hsize.ge]
      rw [if_neg (not_not.mpr hsize)]
      by_cases hiface : ifaceN b.data = 0
      · rw [if_pos hiface, if_neg fun h : Shown b.data => h.2 hiface]
      · rw [if_neg hiface, if_pos (show Shown b.data from ⟨hsize, hiface⟩)]
        rfl
    · rw [if_pos hsize, if_neg fun h : Shown b.data => hsize h.1]

theorem visReadPackets_packets (ops : VisPrintOps) (id : UInt16) {packets : List (UInt16 × Block)}
    (hpackets : ∀ p ∈ packets, Fits p.2 ∧ p.2.type = visPackettype) {n : ℕ} (hn : packets.length ≤ n)
    (first : Bool) (buf : Bytes) :
    visReadPackets ops n first buf (packets.flatMap fun p => pushPacket id p.1 p.2.bytes) =
      printData ops first (dataOf (packets.map Prod.snd)) := by
  induction packets generalizing n first buf with
  | nil => cases n <;> rfl
  | cons p packets ih =>
    cases n with
    | zero => cases hn
    | succ n =>
      obtain ⟨hfits, htype⟩ := hpackets p List.mem_cons_self
      have hrest := fun first buf => ih (fun q hq => hpackets q (List.mem_cons_of_mem p hq))
        (Nat.le_of_succ_le_succ hn) first buf
      rw [List.flatMap_cons, List.map_cons, dataOf]
      by_cases hversion : p.2.version = visPacketversion
      · obtain ⟨buf', hstep⟩ := visReadPackets_push ops id p.1 hfits htype hversion n first buf
          (packets.flatMap fun p => pushPacket id p.1 p.2.bytes)
        rw [hstep, List.takeWhile_cons_of_pos (by simpa using hversion), List.map_cons, printData, hrest,
          hrest]
        rfl
      · rw [visReadPackets, visReceiveAnswerPacket_push id p.1 _ hfits htype, if_neg hversion,
          List.takeWhile_cons_of_neg (by simpa using hversion)]
        rfl

end DataSets

section Texts

theorem plain_hexByte {b : UInt8} {c : Char} (h : c ∈ hexByte b) : Plain c := by
  have hdigit : ∀ n < 16, Plain (Nat.digitChar n) := by
    unfold Plain
    decide
  have hb := b.toNat_lt
  rcases List.mem_cons.mp h with rfl | h
  · exact hdigit _ (by omega)
  · rw [List.mem_singleton.mp h]
    exact hdigit _ (by omega)

theorem plain_macText (mac : EtherAddr) : ∀ c ∈ macText mac, Plain c := by
  intro c hc
  simp only [macText, EtherAddr.octets, List.map_cons, List.map_nil, List.intercalate,
    List.intersperse_cons_cons, List.intersperse_singleton, List.flatten_cons, List.flatten_nil,
    List.append_nil, List.mem_append, List.mem_singleton] at hc
  have hcolon : Plain ':' := by
    unfold Plain
    decide
  rcases hc with hc | rfl | hc | rfl | hc | rfl | hc | rfl | hc | rfl | hc
  all_goals first | exact hcolon | exact plain_hexByte hc

theorem plain_of_isDigit {c : Char} (h : c.isDigit = true) : Plain c := by
  have hrange : 48 ≤ c.toNat ∧ c.toNat ≤ 57 := by
    simpa [Char.isDigit, UInt32.le_iff_toNat_le] using h
  refine ⟨?_, ?_, by omega⟩
  all_goals
    rintro rfl
    exact absurd hrange (by decide)

theorem plain_metricText (qual : UInt8) : ∀ c ∈ metricText qual, Plain c := by
  have hpoint : Plain '.' := by
    unfold Plain
    decide
  have hdigit : ∀ n, Plain (Nat.digitChar (n % 10)) := by
    intro n
    have hall : ∀ d < 10, (Nat.digitChar d).isDigit = true := by decide
    exact plain_of_isDigit (hall _ (Nat.mod_lt n (by decide)))
  intro c hc
  rcases List.mem_append.mp hc with hc | hc
  · exact plain_of_isDigit (Nat.isDigit_of_mem_toDigits (by decide) (by decide) hc)
  · simp only [List.mem_cons, List.not_mem_nil, or_false] at hc
    rcases hc with rfl | rfl | rfl | rfl
    · exact hpoint
    · exact hdigit _
    · exact hdigit _
    · exact hdigit _

theorem spells_quotedMac (mac : EtherAddr) : Spells (quotedMac mac) (.str (macText mac)) :=
  spells_quoted (plain_macText mac)

theorem spells_metric (qual : UInt8) : Spells (quoted (metricText qual)) (.str (metricText qual)) :=
  spells_quoted (plain_metricText qual)

end Texts

section Reading
variable {stack : List Frame}

abbrev Members := List (List Char × Value)

def primaryMember (ifaces : List EtherAddr) : List Char × Value :=
  ("primary".toList, .str (macText (macOf ifaces 0)))

def secondaryMembers (ifaces : List EtherAddr) : Members :=
  if 1 < ifaces.length then
    [("secondary".toList, .arr ((ifaces.drop 1).map fun mac => .str (macText mac)))]
  else []

def neighborValue (ifaces : List EtherAddr) (e : VisEntry) : Value :=
  .obj [("router".toList, .str (macText (macOf ifaces e.ifindex.toNat))),
    ("neighbor".toList, .str (macText e.mac)), ("metric".toList, .str (metricText e.qual))]

/-- What a document says of a node. -/
def entryValue (ifaces : List EtherAddr) (entries : List VisEntry) : Value :=
  .obj (primaryMember ifaces :: secondaryMembers ifaces ++
    [("neighbors".toList, .arr ((entries.filter (isNeighbor ifaces)).map (neighborValue ifaces))),
      ("clients".toList, .arr ((entries.filter isClient).map fun e => .str (macText e.mac)))])

theorem spells_neighborText (ifaces : List EtherAddr) (e : VisEntry) :
    Spells (neighborText ifaces e) (neighborValue ifaces e) := by
  intro stack
  unfold neighborText neighborValue
  have hrouter : Reads (.value stack) "         \x7b \"router\" : ".toList
      (.value (.obj [] "router".toList :: stack)) :=
    ⟨[.openObj, .str "router".toList, .colon], rfl, rfl⟩
  have hneighbor := (((hrouter.append (spells_quotedMac (macOf ifaces e.ifindex.toNat) _)).follow
    ",\n".toList [.comma] rfl rfl).follow "           \"neighbor\" : ".toList
    [.str "neighbor".toList, .colon] rfl rfl).append (spells_quotedMac e.mac _)
  have hmetric := ((hneighbor.follow ",\n".toList [.comma] rfl rfl).follow
    "           \"metric\" : ".toList [.str "metric".toList, .colon] rfl rfl).append
    (spells_metric e.qual _)
  exact hmetric.follow _ [.closeObj] rfl rfl

theorem spells_clientText (e : VisEntry) : Spells (clientText e) (.str (macText e.mac)) := by
  intro stack
  have hblank : Reads (.value stack) "        ".toList (.value stack) := ⟨_, rfl, rfl⟩
  exact hblank.append (spells_quotedMac e.mac stack)

theorem separates_newline : Separates ",\n".toList := rfl

theorem secondaries_eq (macs : List EtherAddr) :
    secondaries macs = separated [','] true (macs.map quotedMac) := by
  induction macs with
  | nil => rfl
  | cons mac macs ih =>
    cases macs with
    | nil => simp [secondaries, separated]
    | cons mac' macs => simpa [secondaries, separated] using ih

theorem reads_secondaries (macs : List EtherAddr) (stack : List Frame) :
    Reads (.item stack) (secondaries macs ++ "\n       ]".toList)
      (.next stack (.arr (macs.map fun mac => .str (macText mac)))) := by
  have hcomma : Separates [','] := rfl
  have hclose : scanAll .blank "\n       ]".toList = some (.blank, [.closeArr]) := rfl
  rw [secondaries_eq]
  exact reads_items stack hcomma spells_quotedMac macs hclose

/-- The members that are printed of the interfaces, the last one first. -/
def interfaceMembers (ifaces : List EtherAddr) : Members :=
  (primaryMember ifaces :: secondaryMembers ifaces).reverse

theorem reads_primary (stack : List Frame) (items : List Value) : Reads (afterItems stack items)
    ((if items.isEmpty then [] else ",\n".toList) ++ "    \x7b \"primary\" : ".toList)
    (.value (.obj [] "primary".toList :: .arr items :: stack)) := by
  cases items with
  | nil => exact ⟨[.openObj, .str "primary".toList, .colon], rfl, rfl⟩
  | cons v items => exact ⟨[.comma, .openObj, .str "primary".toList, .colon], rfl, rfl⟩

theorem reads_interfaces (stack : List Frame) (ifaces : List EtherAddr) (items : List Value) :
    Reads (afterItems stack items) (visJsondocInterfaces items.isEmpty ifaces)
      (.key (interfaceMembers ifaces) (.arr items :: stack)) := by
  have hprimary := ((reads_primary stack items).append
    (spells_quotedMac (macOf ifaces 0) _)).follow ",\n".toList [.comma] rfl rfl
  unfold visJsondocInterfaces interfaceMembers secondaryMembers
  by_cases hmany : 1 < ifaces.length
  · have hopen := hprimary.follow "      \"secondary\" : [ ".toList
      [.str "secondary".toList, .colon, .openArr] rfl rfl
    have hitems := (hopen.append (reads_secondaries (ifaces.drop 1) _)).follow ",\n".toList
      [.comma] rfl rfl
    rw [if_pos hmany, if_pos hmany]
    simp only [List.append_assoc] at hitems ⊢
    exact hitems
  · rw [if_neg hmany, if_neg hmany, List.append_nil]
    exact hprimary

theorem reads_neighbors (stack : List Frame) (entries : List VisEntry) (ifaces : List EtherAddr) :
    Reads (.item stack)
      (separated ",\n".toList true ((entries.filter (isNeighbor ifaces)).map (neighborText ifaces)) ++
        "\n      ]".toList)
      (.next stack (.arr ((entries.filter (isNeighbor ifaces)).map (neighborValue ifaces)))) := by
  have hclose : scanAll .blank "\n      ]".toList = some (.blank, [.closeArr]) := rfl
  exact reads_items stack separates_newline (spells_neighborText ifaces) _ hclose

theorem reads_clients (stack : List Frame) (entries : List VisEntry) :
    Reads (.item stack)
      (separated ",\n".toList true ((entries.filter isClient).map clientText) ++ "\n      ]\n".toList)
      (.next stack (.arr ((entries.filter isClient).map fun e => .str (macText e.mac)))) := by
  have hclose : scanAll .blank "\n      ]\n".toList = some (.blank, [.closeArr]) := rfl
  exact reads_items stack separates_newline spells_clientText _ hclose

theorem reads_entries (stack : List Frame) (entries : List VisEntry) (ifaces : List EtherAddr) (members : Members) :
    Reads (.key members stack) (visJsondocEntries entries ifaces)
      (.next stack (.obj (members.reverse ++
        [("neighbors".toList, .arr ((entries.filter (isNeighbor ifaces)).map (neighborValue ifaces))),
          ("clients".toList, .arr ((entries.filter isClient).map fun e => .str (macText e.mac)))]))) := by
  have hneighbors := reads_neighbors (.obj members "neighbors".toList :: stack) entries ifaces
  have hclients := fun members => reads_clients (.obj members "clients".toList :: stack) entries
  have hopen : Reads (.key members stack) "      \"neighbors\" : [\n".toList
      (.item (.obj members "neighbors".toList :: stack)) :=
    ⟨[.str "neighbors".toList, .colon, .openArr], rfl, rfl⟩
  have hmiddle := ((hopen.append hneighbors).follow ",\n".toList [.comma] rfl rfl).follow
    "      \"clients\" : [\n".toList [.str "clients".toList, .colon, .openArr] rfl rfl
  have hall := (hmiddle.append (hclients _)).follow "    \x7d".toList [.closeObj] rfl rfl
  simp only [List.append_assoc, List.reverse_cons, List.cons_append, List.nil_append] at hall
  unfold visJsondocEntries
  simp only [List.append_assoc]
  exact hall

end Reading

section Whole

/-- There are at least the fixed fields, and something to print behind the interfaces. -/
def Whole (data : Bytes) : Prop := 8 ≤ data.length ∧ (Shown data → entriesN data ≠ 0)

instance (data : Bytes) : Decidable (Whole data) := inferInstanceAs (Decidable (_ ∧ _))

def dataValue (data : Bytes) : Value := entryValue (ifaces data) (visEntries data)

def shownValues (datas : List Bytes) : List Value := (datas.filter fun data => Shown data).map dataValue

def headMembers : Members :=
  [("source_version".toList, .str "2016.1".toList), ("algorithm".toList, .num ['4'])]

def docValue (items : List Value) : Value := .obj (headMembers ++ [("vis".toList, .arr items)])

/-- The list of nodes is open. -/
def root : List Frame := [.obj headMembers.reverse "vis".toList]

theorem reads_preamble : Reads (.value []) visJsondocOps.preamble (.item root) := by
  have hopen : Reads (.value []) "\x7b\n".toList (.member []) := ⟨[.openObj], rfl, rfl⟩
  have hversion := hopen.follow "  \"source_version\" : \"2016.1\",\n".toList
    [.str "source_version".toList, .colon, .str "2016.1".toList, .comma] rfl rfl
  have halgorithm := hversion.follow "  \"algorithm\" : 4,\n".toList
    [.str "algorithm".toList, .colon, .num ['4'], .comma] rfl rfl
  exact halgorithm.follow _ [.str "vis".toList, .colon, .openArr] rfl rfl

theorem scanAll_postamble :
    scanAll .blank visJsondocOps.postamble = some (.blank, [.closeArr, .closeObj]) := rfl

theorem reads_postamble (items : List Value) :
    Reads (afterItems root items) visJsondocOps.postamble (.next [] (docValue items.reverse)) := by
  refine ⟨_, scanAll_postamble, ?_⟩
  cases items <;> rfl

theorem reads_dataText {data : Bytes} (hentries : entriesN data ≠ 0) (items : List Value)
    (stack : List Frame) : Reads (afterItems stack items) (dataText visJsondocOps items.isEmpty data)
      (afterItems stack (dataValue data :: items)) := by
  have hinterfaces := reads_interfaces stack (ifaces data) items
  have hall := hinterfaces.append (reads_entries _ (visEntries data) (ifaces data) _)
  rw [interfaceMembers, List.reverse_reverse] at hall
  rw [dataText, if_neg hentries]
  exact hall

theorem reads_printData {datas : List Bytes} (h : ∀ data ∈ datas, Whole data) (items : List Value) :
    (printData visJsondocOps items.isEmpty datas).2 = true ∧
      Reads (afterItems root items) (printData visJsondocOps items.isEmpty datas).1
        (afterItems root ((shownValues datas).reverse ++ items)) := by
  induction datas generalizing items with
  | nil => exact ⟨rfl, Reads.nil _⟩
  | cons data datas ih =>
    obtain ⟨hlong, hentries⟩ := h data List.mem_cons_self
    have hrest := ih fun data' hdata' => h data' (List.mem_cons_of_mem data hdata')
    rw [printData, if_neg (Nat.not_lt.mpr hlong)]
    by_cases hshown : Shown data
    · obtain ⟨hended, hreads⟩ := hrest (dataValue data :: items)
      have hvalues : shownValues (data :: datas) = dataValue data :: shownValues datas := by
        simp [shownValues, hshown]
      rw [if_pos hshown, hvalues, List.reverse_cons, List.append_assoc]
      exact ⟨hended, (reads_dataText (hentries hshown) items root).append hreads⟩
    · have hvalues : shownValues (data :: datas) = shownValues datas := by
        simp [shownValues, hshown]
      rw [if_neg hshown, hvalues]
      exact hrest items

end Whole

section Broken

theorem visJsondocInterfaces_false (ifaces : List EtherAddr) :
    visJsondocInterfaces false ifaces = ",\n".toList ++ visJsondocInterfaces true ifaces := by
  simp only [visJsondocInterfaces, Bool.false_eq_true, if_false, if_true, List.nil_append,
    List.append_assoc]

theorem scans_dataText (data : Bytes) : Scans (dataText visJsondocOps true data) := by
  have hinterfaces := (reads_interfaces [] (ifaces data) []).scans
  have hentries := (reads_entries [] (visEntries data) (ifaces data) []).scans
  rw [dataText]
  split_ifs
  · rw [List.append_nil]
    exact hinterfaces
  · exact hinterfaces.append hentries

theorem dataText_false (data : Bytes) :
    dataText visJsondocOps false data = ",\n".toList ++ dataText visJsondocOps true data := by
  have hfirst : visJsondocOps.interfaces false (ifaces data) =
      ",\n".toList ++ visJsondocOps.interfaces true (ifaces data) := visJsondocInterfaces_false _
  rw [dataText, hfirst, List.append_assoc, dataText]

/-- What follows the first data sets, with the closing brackets if it comes to them. -/
def restText (first : Bool) (datas : List Bytes) : List Char :=
  (printData visJsondocOps first datas).1 ++
    if (printData visJsondocOps first datas).2 then visJsondocOps.postamble else []

theorem restText_shown {data : Bytes} (first : Bool) (datas : List Bytes) (hlong : ¬ data.length < 8)
    (hshown : Shown data) :
    restText first (data :: datas) = dataText visJsondocOps first data ++ restText false datas := by
  simp only [restText, printData, if_neg hlong, if_pos hshown, List.append_assoc]

theorem restText_skipped {data : Bytes} (first : Bool) (datas : List Bytes) (hlong : ¬ data.length < 8)
    (hshown : ¬ Shown data) : restText first (data :: datas) = restText first datas := by
  simp only [restText, printData, if_neg hlong, if_neg hshown]

theorem restText_short {data : Bytes} (first : Bool) (datas : List Bytes) (hshort : data.length < 8) :
    restText first (data :: datas) = [] := by
  simp only [restText, printData, if_pos hshort]
  rfl

theorem scans_restText (datas : List Bytes) : Scans (restText false datas) := by
  induction datas with
  | nil => exact ⟨_, scanAll_postamble⟩
  | cons data datas ih =>
    by_cases hshort : data.length < 8
    · rw [restText_short false datas hshort]
      exact ⟨[], rfl⟩
    · by_cases hshown : Shown data
      · rw [restText_shown false datas hshort hshown, dataText_false]
        exact (separates_newline.scans.append (scans_dataText data)).append ih
      · rw [restText_skipped false datas hshort hshown]
        exact ih

/-- Nothing that is printed can follow an object that is not closed. -/
theorem fails_restText (members : Members) (stack : List Frame) (datas : List Bytes) :
    Fails (.key members stack) (restText false datas) := by
  induction datas with
  | nil => exact .inl ⟨_, scanAll_postamble, rfl⟩
  | cons data datas ih =>
    by_cases hshort : data.length < 8
    · rw [restText_short false datas hshort]
      exact .inr ⟨_, Reads.nil _, rfl⟩
    · by_cases hshown : Shown data
      · rw [restText_shown false datas hshort hshown, dataText_false, List.append_assoc]
        exact .inl ((separates_newline.rejects members).append
          ((scans_dataText data).append (scans_restText datas)))
      · rw [restText_skipped false datas hshort hshown]
        exact ih

theorem finished_afterItems (items : List Value) : finished (afterItems root items) = none := by
  cases items <;> rfl

theorem fails_broken {datas : List Bytes} {data : Bytes} (hdata : data ∈ datas) (hbroken : ¬ Whole data)
    (items : List Value) : Fails (afterItems root items) (restText items.isEmpty datas) := by
  induction datas generalizing items with
  | nil => cases hdata
  | cons head datas ih =>
    by_cases hshort : head.length < 8
    · rw [restText_short _ datas hshort]
      exact .inr ⟨_, Reads.nil _, finished_afterItems items⟩
    · by_cases hshown : Shown head
      · rw [restText_shown _ datas hshort hshown]
        by_cases hentries : entriesN head = 0
        · rw [dataText, if_pos hentries, List.append_nil]
          exact (reads_interfaces root (ifaces head) items).fails (fails_restText _ _ datas)
        · have hwhole : Whole head := ⟨Nat.not_lt.mp hshort, fun _ => hentries⟩
          have hmem : data ∈ datas := by
            rcases List.mem_cons.mp hdata with rfl | hmem
            · exact absurd hwhole hbroken
            · exact hmem
          exact (reads_dataText hentries items root).fails (ih hmem (dataValue head :: items))
      · rw [restText_skipped _ datas hshort hshown]
        have hwhole : Whole head := ⟨Nat.not_lt.mp hshort, fun h => absurd h hshown⟩
        rcases List.mem_cons.mp hdata with rfl | hmem
        · exact absurd hwhole hbroken
        · exact ih hmem items

/-- The document is one exactly when every data set is whole, and tells of the data sets that are shown. -/
theorem parse_printed (datas : List Bytes) : parse (printed visJsondocOps datas) =
    if ∀ data ∈ datas, Whole data then some (docValue (shownValues datas)) else none := by
  have hprinted : printed visJsondocOps datas = visJsondocOps.preamble ++ restText true datas := by
    rw [printed, List.append_assoc, restText]
  rw [hprinted]
  by_cases hwhole : ∀ data ∈ datas, Whole data
  · obtain ⟨hended, hreads⟩ := reads_printData hwhole []
    have hend := reads_preamble.append (hreads.append (reads_postamble _))
    rw [if_pos hwhole, restText, show (printData visJsondocOps true datas).2 = true from hended, if_pos rfl]
    rw [List.append_nil, List.reverse_reverse] at hend
    exact hend.parse
  · obtain ⟨data, hdata, hbroken⟩ : ∃ data ∈ datas, ¬ Whole data := by simpa using hwhole
    rw [if_neg hwhole]
    exact (reads_preamble.fails (fails_broken hdata hbroken [])).parse

end Broken

end NexFi.VisDocument
