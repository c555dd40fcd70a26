import Mathlib.Data.Fin.VecNotation
import Mathlib.Data.Fintype.Basic
import Mathlib.Tactic.FinCases
import Mathlib.Tactic.Linarith
import NexFi.PackedRecords

/-!
# The packets of the exchange daemon

Every packet starts with a type, a version and a length in network byte order. A
data block is the address of its source, a header of the same form and as many
bytes as the header says.
-/

namespace NexFi.AlfredPacket

section Words

def htons (v : UInt16) : List UInt8 := [UInt8.ofNat (v.toNat / 256), v.toUInt8]

def ntohs (hi lo : UInt8) : UInt16 := UInt16.ofNat (256 * hi.toNat + lo.toNat)

theorem ntohs_htons (v : UInt16) :
    ntohs (UInt8.ofNat (v.toNat / 256)) v.toUInt8 = v := by
  have hv := v.toNat_lt
  refine UInt16.toNat_inj.mp ?_
  simp only [ntohs, UInt16.toNat_ofNat', UInt8.toNat_ofNat', UInt16.toNat_toUInt8]
  omega

theorem htons_ntohs (hi lo : UInt8) : htons (ntohs hi lo) = [hi, lo] := by
  have hhi := hi.toNat_lt
  have hlo := lo.toNat_lt
  have hword : (ntohs hi lo).toNat = 256 * hi.toNat + lo.toNat := by
    rw [ntohs, UInt16.toNat_ofNat', Nat.mod_eq_of_lt (by omega)]
  rw [htons, hword, List.cons.injEq, List.cons.injEq]
  refine ⟨?_, ?_, rfl⟩
  · refine UInt8.toNat_inj.mp ?_
    rw [UInt8.toNat_ofNat']
    omega
  · refine UInt8.toNat_inj.mp ?_
    rw [UInt16.toNat_toUInt8]
    omega

@[simp] theorem length_htons (v : UInt16) : (htons v).length = 2 := rfl

end Words

section Addresses

@[ext] structure EtherAddr where
  octet0 : UInt8
  octet1 : UInt8
  octet2 : UInt8
  octet3 : UInt8
  octet4 : UInt8
  octet5 : UInt8
deriving DecidableEq

def EtherAddr.octets (a : EtherAddr) : List UInt8 :=
  [a.octet0, a.octet1, a.octet2, a.octet3, a.octet4, a.octet5]

/-- No multicast address and not all zero. -/
def isValidEtherAddr (a : EtherAddr) : Bool :=
  a.octet0 &&& 1 = 0 &&
    a.octet0 ||| a.octet1 ||| a.octet2 ||| a.octet3 ||| a.octet4 ||| a.octet5 ≠ 0

abbrev In6Addr := Fin 16 → UInt8

def localmcast : In6Addr := ![0xff, 0x02, 0, 0, 0, 0, 0, 0, 0, 0, 0, 0, 0, 0, 0, 0x01]

def macToIpv6 (mac : EtherAddr) : In6Addr :=
  ![0xfe, 0x80, 0, 0, 0, 0, 0, 0, mac.octet0 ^^^ 0x02, mac.octet1, mac.octet2, 0xff, 0xfe,
    mac.octet3, mac.octet4, mac.octet5]

def isIpv6Eui64 (addr : In6Addr) : Bool :=
  ([2, 3, 4, 5, 6, 7] : List (Fin 16)).all (fun i => addr i = 0) &&
    addr 0 = 0xfe && addr 1 = 0x80 && addr 11 = 0xff && addr 12 = 0xfe

def eui64Mac (addr : In6Addr) : EtherAddr :=
  ⟨addr 8 ^^^ 0x02, addr 9, addr 10, addr 13, addr 14, addr 15⟩

def ipv6ToMac (addr : In6Addr) : Option EtherAddr :=
  if isIpv6Eui64 addr && isValidEtherAddr (eui64Mac addr) then some (eui64Mac addr) else none

theorem isIpv6Eui64_macToIpv6 (mac : EtherAddr) : isIpv6Eui64 (macToIpv6 mac) = true := rfl

@[simp] theorem eui64Mac_macToIpv6 (mac : EtherAddr) : eui64Mac (macToIpv6 mac) = mac := by
  have hflip : mac.octet0 ^^^ 0x02 ^^^ 0x02 = mac.octet0 := by
    rw [UInt8.xor_assoc, UInt8.xor_self, UInt8.xor_zero]
  exact EtherAddr.ext hflip rfl rfl rfl rfl rfl

theorem macToIpv6_eui64Mac {addr : In6Addr} (h : isIpv6Eui64 addr = true) :
    macToIpv6 (eui64Mac addr) = addr := by
  simp only [isIpv6Eui64, Bool.and_eq_true, decide_eq_true_eq, List.all_cons, List.all_nil,
    Bool.and_true] at h
  obtain ⟨⟨⟨⟨⟨h2, h3, h4, h5, h6, h7⟩, h0⟩, h1⟩, h11⟩, h12⟩ := h
  have hflip : addr 8 ^^^ 0x02 ^^^ 0x02 = addr 8 := by
    rw [UInt8.xor_assoc, UInt8.xor_self, UInt8.xor_zero]
  funext i
  fin_cases i
  all_goals first | exact hflip | exact Eq.symm (by assumption) | rfl

/-- The hardware address is what an address of the local link is made of. -/
theorem ipv6ToMac_eq_some {addr : In6Addr} {mac : EtherAddr} :
    ipv6ToMac addr = some mac ↔ addr = macToIpv6 mac ∧ isValidEtherAddr mac = true := by
  rw [ipv6ToMac, Option.ite_none_right_eq_some, Option.some_inj, Bool.and_eq_true]
  constructor
  · rintro ⟨⟨heui, hvalid⟩, rfl⟩
    exact ⟨(macToIpv6_eui64Mac heui).symm, hvalid⟩
  · rintro ⟨rfl, hvalid⟩
    rw [eui64Mac_macToIpv6]
    exact ⟨⟨isIpv6Eui64_macToIpv6 mac, hvalid⟩, rfl⟩

end Addresses

section Headers

structure Tlv where
  type : UInt8
  version : UInt8
  length : UInt16

def Tlv.bytes (t : Tlv) : List UInt8 := t.type :: t.version :: htons t.length

def takeTlv : List UInt8 → Option (Tlv × List UInt8)
  | type :: version :: hi :: lo :: rest => some (⟨type, version, ntohs hi lo⟩, rest)
  | _ => none

theorem takeTlv_bytes (t : Tlv) (rest : List UInt8) : takeTlv (t.bytes ++ rest) = some (t, rest) := by
  simp [Tlv.bytes, htons, takeTlv, ntohs_htons]

theorem takeTlv_eq_some {bytes rest : List UInt8} {t : Tlv} (h : takeTlv bytes = some (t, rest)) :
    bytes = t.bytes ++ rest := by
  match bytes, h with
  | type :: version :: hi :: lo :: tail, h =>
    simp only [takeTlv, Option.some.injEq, Prod.mk.injEq] at h
    obtain ⟨rfl, rfl⟩ := h
    simp [Tlv.bytes, htons_ntohs]

def takeMac : List UInt8 → Option (EtherAddr × List UInt8)
  | a :: b :: c :: d :: e :: f :: rest => some (⟨a, b, c, d, e, f⟩, rest)
  | _ => none

theorem takeMac_octets (a : EtherAddr) (rest : List UInt8) :
    takeMac (a.octets ++ rest) = some (a, rest) := rfl

theorem takeMac_eq_some {bytes rest : List UInt8} {a : EtherAddr}
    (h : takeMac bytes = some (a, rest)) : bytes = a.octets ++ rest := by
  match bytes, h with
  | _ :: _ :: _ :: _ :: _ :: _ :: tail, h =>
    simp only [takeMac, Option.some.injEq, Prod.mk.injEq] at h
    obtain ⟨rfl, rfl⟩ := h
    rfl

end Headers

section Blocks

structure Block where
  source : EtherAddr
  type : UInt8
  version : UInt8
  data : List UInt8
  fits : data.length < 2 ^ 16
deriving DecidableEq

namespace Block

def header (b : Block) : Tlv := ⟨b.type, b.version, UInt16.ofNat b.data.length⟩

def bytes (b : Block) : List UInt8 := b.source.octets ++ (b.header.bytes ++ b.data)

/-- The bytes of the block, its header included. -/
def size (b : Block) : ℕ := b.data.length + 10

theorem toNat_header_length (b : Block) : b.header.length.toNat = b.data.length := by
  rw [header, UInt16.toNat_ofNat', Nat.mod_eq_of_lt b.fits]

@[simp] theorem length_bytes (b : Block) : b.bytes.length = b.size := by
  simp only [bytes, EtherAddr.octets, Tlv.bytes, htons, List.length_append, List.length_cons,
    List.length_nil, size]
  omega

end Block

def takeBlock (bytes : List UInt8) : Option (Block × List UInt8) := do
  let (source, bytes) ← takeMac bytes
  let (header, bytes) ← takeTlv bytes
  if h : header.length.toNat ≤ bytes.length then
    some (⟨source, header.type, header.version, bytes.take header.length.toNat, by
      rw [List.length_take]
      have := header.length.toNat_lt
      omega⟩, bytes.drop header.length.toNat)
  else none

theorem takeBlock_bytes (b : Block) (rest : List UInt8) :
    takeBlock (b.bytes ++ rest) = some (b, rest) := by
  have hsource := takeMac_octets b.source (b.header.bytes ++ b.data ++ rest)
  have hheader : takeTlv (b.header.bytes ++ b.data ++ rest) = some (b.header, b.data ++ rest) := by
    rw [List.append_assoc, takeTlv_bytes]
  have hroom : b.data.length ≤ (b.data ++ rest).length := by simp
  rw [takeBlock, Block.bytes, List.append_assoc, hsource]
  simp only [Option.bind_eq_bind, Option.bind_some, hheader, b.toNat_header_length, hroom,
    dite_true, List.take_left', List.drop_left']
  rfl

theorem takeBlock_eq_some {bytes rest : List UInt8} {b : Block}
    (h : takeBlock bytes = some (b, rest)) : bytes = b.bytes ++ rest := by
  simp only [takeBlock, Option.bind_eq_bind, Option.bind_eq_some_iff, Prod.exists] at h
  obtain ⟨source, tail, hsource, header, body, hheader, hbody⟩ := h
  rw [takeMac_eq_some hsource, takeTlv_eq_some hheader]
  split at hbody
  case isFalse => cases hbody
  case isTrue hroom =>
    simp only [Option.some.injEq, Prod.mk.injEq] at hbody
    obtain ⟨rfl, rfl⟩ := hbody
    have hlength : (body.take header.length.toNat).length = header.length.toNat := by
      rw [List.length_take, Nat.min_eq_left hroom]
    simp [Block.bytes, Block.header, hlength]

/-- The blocks up to the first one that is cut off. -/
def takeBlocks : ℕ → List UInt8 → List Block
  | 0, _ => []
  | rounds + 1, bytes =>
    match takeBlock bytes with
    | none => []
    | some (b, rest) => b :: takeBlocks rounds rest

def blocksOf (bytes : List UInt8) : List Block := takeBlocks bytes.length bytes

theorem takeBlocks_flatMap (bs : List Block) {rounds : ℕ} (h : bs.length ≤ rounds) :
    takeBlocks rounds (bs.flatMap Block.bytes) = bs := by
  induction bs generalizing rounds with
  | nil => cases rounds <;> rfl
  | cons b bs ih =>
    cases rounds with
    | zero => cases h
    | succ rounds =>
      rw [List.flatMap_cons, takeBlocks, takeBlock_bytes]
      simp only
      rw [ih (Nat.le_of_succ_le_succ h)]

theorem length_bytes_pos (b : Block) : 0 < b.bytes.length := by
  rw [b.length_bytes, Block.size]
  omega

@[simp] theorem blocksOf_flatMap (bs : List Block) : blocksOf (bs.flatMap Block.bytes) = bs :=
  takeBlocks_flatMap bs (PackedRecords.length_le_length_flatMap length_bytes_pos bs)

/-- What is read is a beginning of the bytes. -/
theorem flatMap_takeBlocks (rounds : ℕ) (bytes : List UInt8) :
    (takeBlocks rounds bytes).flatMap Block.bytes <+: bytes := by
  induction rounds generalizing bytes with
  | zero => exact List.nil_prefix
  | succ rounds ih =>
    rw [takeBlocks]
    split
    · exact List.nil_prefix
    · rename_i b rest hblock
      rw [takeBlock_eq_some hblock, List.flatMap_cons, List.prefix_append_right_inj]
      exact ih rest

end Blocks

section Packets

def alfredPushData : UInt8 := 0
def alfredAnnounceMaster : UInt8 := 1
def alfredRequest : UInt8 := 2
def alfredStatusTxend : UInt8 := 3
def alfredStatusError : UInt8 := 4
def alfredModeswitch : UInt8 := 5
def alfredChangeInterface : UInt8 := 6

def alfredVersion : UInt8 := 0

/-- A packet whose header says its length. -/
def packet (type : UInt8) (body : List UInt8) : List UInt8 :=
  Tlv.bytes ⟨type, alfredVersion, UInt16.ofNat body.length⟩ ++ body

def pushPacket (id seqno : UInt16) (data : List UInt8) : List UInt8 :=
  packet alfredPushData (htons id ++ (htons seqno ++ data))

def statusPacket (type : UInt8) (id seqno : UInt16) : List UInt8 :=
  packet type (htons id ++ htons seqno)

def requestPacket (requestedType : UInt8) (id : UInt16) : List UInt8 :=
  packet alfredRequest (requestedType :: htons id)

def takeTx : List UInt8 → Option ((UInt16 × UInt16) × List UInt8)
  | a :: b :: c :: d :: rest => some ((ntohs a b, ntohs c d), rest)
  | _ => none

theorem takeTx_htons (id seqno : UInt16) (rest : List UInt8) :
    takeTx (htons id ++ (htons seqno ++ rest)) = some ((id, seqno), rest) := by
  simp [htons, takeTx, ntohs_htons]

theorem takeTlv_packet (type : UInt8) (body : List UInt8) :
    takeTlv (packet type body) = some (⟨type, alfredVersion, UInt16.ofNat body.length⟩, body) :=
  takeTlv_bytes _ _

end Packets

end NexFi.AlfredPacket
