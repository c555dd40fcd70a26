import NexFi.AlfredClient
import NexFi.PackedRecords

/-!
# Vis data

A node tells of its interfaces and of the neighbours and clients behind them in one
data set. Whoever prints the data sets of all nodes receives them into a buffer that
keeps what was there before, and goes by the length that the block says.
-/

namespace NexFi.VisData
open AlfredPacket AlfredServer AlfredData AlfredClient PackedRecords

section Records

def visPackettype : UInt8 := 1
def visPacketversion : UInt8 := 1

/-- Interface 255 is for clients. -/
structure VisEntry where
  mac : EtherAddr
  ifindex : UInt8
  qual : UInt8
deriving DecidableEq

def VisEntry.bytes (e : VisEntry) : Bytes := e.mac.octets ++ [e.ifindex, e.qual]

def noMac : EtherAddr := ⟨0, 0, 0, 0, 0, 0⟩

/-- What is published, from the interfaces and entries that were found. -/
def compileVisData (ifaces : List EtherAddr) (entries : List VisEntry) : Bytes :=
  noMac.octets ++ [UInt8.ofNat (ifaces.take 254).length, UInt8.ofNat (entries.take 255).length] ++
    (ifaces.take 254).flatMap EtherAddr.octets ++ (entries.take 255).flatMap VisEntry.bytes

def octet (bytes : Bytes) (i : ℕ) : UInt8 := bytes.getD i 0

def macAt (bytes : Bytes) : EtherAddr :=
  ⟨octet bytes 0, octet bytes 1, octet bytes 2, octet bytes 3, octet bytes 4, octet bytes 5⟩

def entryAt (bytes : Bytes) : VisEntry := ⟨macAt bytes, octet bytes 6, octet bytes 7⟩

def macsAt (n : ℕ) (bytes : Bytes) : List EtherAddr := recordsAt 6 macAt n bytes

def entriesAt (n : ℕ) (bytes : Bytes) : List VisEntry := recordsAt 8 entryAt n bytes

def ifaceN (visData : Bytes) : ℕ := (octet visData 6).toNat

def entriesN (visData : Bytes) : ℕ := (octet visData 7).toNat

def ifaces (visData : Bytes) : List EtherAddr := macsAt (ifaceN visData) (visData.drop 8)

def visEntries (visData : Bytes) : List VisEntry :=
  entriesAt (entriesN visData) (visData.drop (8 + 6 * ifaceN visData))

def visDataSize (visData : Bytes) : ℕ := 8 + ifaceN visData * 6 + entriesN visData * 8

@[simp] theorem length_ifaces (visData : Bytes) : (ifaces visData).length = ifaceN visData :=
  length_recordsAt _ _

@[simp] theorem length_visEntries (visData : Bytes) : (visEntries visData).length = entriesN visData :=
  length_recordsAt _ _

end Records

section Stale
variable {bytes : Bytes} (stale : Bytes)

/-- What lies behind the bytes is not looked at. -/
theorem octet_append {i : ℕ} (h : i < bytes.length) : octet (bytes ++ stale) i = octet bytes i :=
  List.getD_append _ _ _ _ h

theorem macAt_append (h : 6 ≤ bytes.length) : macAt (bytes ++ stale) = macAt bytes := by
  unfold macAt
  rw [octet_append, octet_append, octet_append, octet_append, octet_append, octet_append] <;> omega

theorem entryAt_append (h : 8 ≤ bytes.length) : entryAt (bytes ++ stale) = entryAt bytes := by
  unfold entryAt
  rw [macAt_append, octet_append, octet_append] <;> omega

theorem macsAt_append {n : ℕ} (h : 6 * n ≤ bytes.length) : macsAt n (bytes ++ stale) = macsAt n bytes :=
  recordsAt_append (fun _ stale hmac => macAt_append stale hmac) h stale

theorem entriesAt_append {n : ℕ} (h : 8 * n ≤ bytes.length) :
    entriesAt n (bytes ++ stale) = entriesAt n bytes :=
  recordsAt_append (fun _ stale hentry => entryAt_append stale hentry) h stale

theorem ifaceN_append (h : 8 ≤ bytes.length) : ifaceN (bytes ++ stale) = ifaceN bytes := by
  rw [ifaceN, octet_append stale (by omega), ifaceN]

theorem entriesN_append (h : 8 ≤ bytes.length) : entriesN (bytes ++ stale) = entriesN bytes := by
  rw [entriesN, octet_append stale (by omega), entriesN]

theorem visDataSize_append (h : 8 ≤ bytes.length) : visDataSize (bytes ++ stale) = visDataSize bytes := by
  rw [visDataSize, ifaceN_append stale h, entriesN_append stale h, visDataSize]

theorem ifaces_append (h : visDataSize bytes ≤ bytes.length) : ifaces (bytes ++ stale) = ifaces bytes := by
  unfold visDataSize at h
  have hroom : 6 * ifaceN bytes ≤ (bytes.drop 8).length := by
    rw [List.length_drop]
    omega
  rw [ifaces, ifaceN_append stale (by omega), List.drop_append_of_le_length (by omega),
    macsAt_append stale hroom, ifaces]

theorem visEntries_append (h : visDataSize bytes ≤ bytes.length) :
    visEntries (bytes ++ stale) = visEntries bytes := by
  unfold visDataSize at h
  have hroom : 8 * entriesN bytes ≤ (bytes.drop (8 + 6 * ifaceN bytes)).length := by
    rw [List.length_drop]
    omega
  rw [visEntries, ifaceN_append stale (by omega), entriesN_append stale (by omega),
    List.drop_append_of_le_length (by omega), entriesAt_append stale hroom, visEntries]

end Stale

section RoundTrip
variable (macs : List EtherAddr) (entries : List VisEntry)

theorem macAt_octets (mac : EtherAddr) (rest : Bytes) : macAt (mac.octets ++ rest) = mac := rfl

theorem entryAt_bytes (e : VisEntry) (rest : Bytes) : entryAt (e.bytes ++ rest) = e := rfl

theorem length_octets (mac : EtherAddr) : mac.octets.length = 6 := rfl

theorem length_entry (e : VisEntry) : e.bytes.length = 8 := rfl

theorem macsAt_octets (rest : Bytes) :
    macsAt macs.length (macs.flatMap EtherAddr.octets ++ rest) = macs :=
  recordsAt_flatMap length_octets macAt_octets macs rest

theorem entriesAt_bytes (rest : Bytes) :
    entriesAt entries.length (entries.flatMap VisEntry.bytes ++ rest) = entries :=
  recordsAt_flatMap length_entry entryAt_bytes entries rest

theorem ifaceN_compileVisData : ifaceN (compileVisData macs entries) = (macs.take 254).length := by
  have hlength : (macs.take 254).length ≤ 254 := List.length_take_le ..
  change (UInt8.ofNat (macs.take 254).length).toNat = _
  rw [UInt8.toNat_ofNat', Nat.mod_eq_of_lt (by omega)]

theorem entriesN_compileVisData : entriesN (compileVisData macs entries) = (entries.take 255).length := by
  have hlength : (entries.take 255).length ≤ 255 := List.length_take_le ..
  change (UInt8.ofNat (entries.take 255).length).toNat = _
  rw [UInt8.toNat_ofNat', Nat.mod_eq_of_lt (by omega)]

theorem drop_compileVisData : (compileVisData macs entries).drop 8 =
    (macs.take 254).flatMap EtherAddr.octets ++ (entries.take 255).flatMap VisEntry.bytes := by
  rw [compileVisData, List.append_assoc]
  rfl

theorem length_compileVisData : (compileVisData macs entries).length =
    visDataSize (compileVisData macs entries) := by
  have hdrop := congrArg List.length (drop_compileVisData macs entries)
  have hhead : 8 ≤ (compileVisData macs entries).length := by
    rw [compileVisData, List.append_assoc, List.length_append]
    exact Nat.le_add_right _ _
  rw [List.length_drop, List.length_append, length_flatMap_records length_octets,
    length_flatMap_records length_entry] at hdrop
  rw [visDataSize, ifaceN_compileVisData, entriesN_compileVisData]
  omega

theorem ifaces_compileVisData : ifaces (compileVisData macs entries) = macs.take 254 := by
  rw [ifaces, ifaceN_compileVisData, drop_compileVisData, macsAt_octets]

theorem visEntries_compileVisData : visEntries (compileVisData macs entries) = entries.take 255 := by
  have hskip := length_flatMap_records length_octets (macs.take 254)
  rw [visEntries, entriesN_compileVisData, ifaceN_compileVisData, ← List.drop_drop, drop_compileVisData,
    List.drop_left' hskip]
  simpa using entriesAt_bytes (entries.take 255) []

theorem length_compileVisData_le : (compileVisData macs entries).length ≤ 3578 := by
  have hmacs : (macs.take 254).length ≤ 254 := List.length_take_le ..
  have hentries : (entries.take 255).length ≤ 255 := List.length_take_le ..
  rw [length_compileVisData, visDataSize, ifaceN_compileVisData, entriesN_compileVisData]
  omega

end RoundTrip

section Publishing

/-- The data set as the node hands it to its daemon. -/
def visBlock (ifaces : List EtherAddr) (entries : List VisEntry) : Block where
  source := noMac
  type := visPackettype
  version := visPacketversion
  data := compileVisData ifaces entries
  fits := by
    have hlength := length_compileVisData_le ifaces entries
    omega

/-- The packet, from the number of the last one. -/
def visPublishData (id : UInt16) (ifaces : List EtherAddr) (entries : List VisEntry) : Bytes :=
  pushPacket (id + 1) 0 (visBlock ifaces entries).bytes

end Publishing

section Receiving

/-- What a packet is received into, with the length that its block says, and the rest of the answer. -/
def visReceiveAnswerPacket (buf answer : Bytes) : Option (ℕ × Bytes × Bytes) :=
  match takeTlv answer with
  | none => none
  | some (tlv, rest) =>
    if tlv.type ≠ alfredPushData then none
    else if 65532 < tlv.length.toNat then none
    else if tlv.length.toNat < 14 then none
    else if rest.length < tlv.length.toNat then none
    else
      let buf := answer.take (4 + tlv.length.toNat) ++ buf.drop (4 + tlv.length.toNat)
      if octet buf 14 ≠ visPackettype then none
      else if octet buf 15 ≠ visPacketversion then none
      else some ((ntohs (octet buf 16) (octet buf 17)).toNat, buf, rest.drop tlv.length.toNat)

section Push
variable {b : Block} (id seqno : UInt16) (rest : Bytes)

theorem length_pushBody : (htons id ++ (htons seqno ++ b.bytes)).length = 14 + b.data.length := by
  simp only [List.length_append, length_htons, b.length_bytes, Block.size]
  omega

theorem length_pushPacket : (pushPacket id seqno b.bytes).length = 4 + (14 + b.data.length) := by
  rw [pushPacket, packet, List.length_append, length_pushBody]
  rfl

theorem takeTlv_pushPacket : takeTlv (pushPacket id seqno b.bytes ++ rest) =
    some (⟨alfredPushData, alfredVersion, UInt16.ofNat (14 + b.data.length)⟩,
      (htons id ++ (htons seqno ++ b.bytes)) ++ rest) := by
  rw [pushPacket, packet, length_pushBody, List.append_assoc, takeTlv_bytes]

theorem octets_pushPacket : octet (pushPacket id seqno b.bytes ++ rest) 14 = b.type ∧
    octet (pushPacket id seqno b.bytes ++ rest) 15 = b.version ∧
    ntohs (octet (pushPacket id seqno b.bytes ++ rest) 16) (octet (pushPacket id seqno b.bytes ++ rest) 17) =
      UInt16.ofNat b.data.length :=
  ⟨rfl, rfl, ntohs_htons _⟩

theorem visReceiveAnswerPacket_push (hfits : Fits b) (htype : b.type = visPackettype) (buf : Bytes) :
    visReceiveAnswerPacket buf (pushPacket id seqno b.bytes ++ rest) =
      if b.version = visPacketversion then
        some (b.data.length, pushPacket id seqno b.bytes ++ buf.drop (4 + (14 + b.data.length)), rest)
      else none := by
  have hroom : b.data.length + 10 ≤ room := hfits
  unfold room maxPayload at hroom
  have hlength : (UInt16.ofNat (14 + b.data.length)).toNat = 14 + b.data.length := by
    rw [UInt16.toNat_ofNat', Nat.mod_eq_of_lt (by omega)]
  have hsays : (UInt16.ofNat b.data.length).toNat = b.data.length := by
    rw [UInt16.toNat_ofNat', Nat.mod_eq_of_lt (by omega)]
  have hrest : ¬ ((htons id ++ (htons seqno ++ b.bytes)) ++ rest).length < 14 + b.data.length := by
    rw [List.length_append, length_pushBody]
    omega
  have htake : (pushPacket id seqno b.bytes ++ rest).take (4 + (14 + b.data.length)) =
      pushPacket id seqno b.bytes := List.take_left' (length_pushPacket id seqno)
  have hdrop : ((htons id ++ (htons seqno ++ b.bytes)) ++ rest).drop (14 + b.data.length) = rest :=
    List.drop_left' (length_pushBody id seqno)
  have hoctets := octets_pushPacket (b := b) id seqno (buf.drop (4 + (14 + b.data.length)))
  rw [visReceiveAnswerPacket, takeTlv_pushPacket]
  simp only [hlength, hrest, htake, hdrop, hoctets.1, hoctets.2.1, hoctets.2.2, hsays, htype, ne_eq,
    not_true_eq_false, if_false, show ¬ 65532 < 14 + b.data.length by omega,
    show ¬ 14 + b.data.length < 14 by omega]
  by_cases hversion : b.version = visPacketversion
  · rw [if_neg (not_not.mpr hversion), if_pos hversion]
  · rw [if_pos hversion, if_neg hversion]

theorem drop_pushPacket : (pushPacket id seqno b.bytes ++ rest).drop 18 = b.data ++ rest := rfl

end Push

end Receiving

end NexFi.VisData
