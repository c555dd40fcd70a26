import NexFi.AlfredData

/-!
# The exchange daemon

A master answers requests and synchronizes with the other masters; a slave hands
its data to the best master it has heard of. What a peer pushes is collected under
the peer's address and an id until the peer says how many packets there were.
Memory never runs out here, and what a handler returns is left out, since the main
loop looks at none of it.
-/

namespace NexFi.AlfredServer
open AlfredPacket AlfredData ChainTable

abbrev Bytes := List UInt8

structure Server where
  hwaddr : EtherAddr
  address : In6Addr
  lastSeen : Timespec
  tq : UInt8

def serverHashing : Hashing EtherAddr Server where
  key := Server.hwaddr
  size := 64
  choose := fun mac => bucket 64 (by decide) (mac.octets.map UInt8.toUInt32)

/-- Its two sockets are opened and closed together. -/
structure Interface where
  name : Bytes
  hwaddr : EtherAddr
  address : In6Addr
  scopeId : UInt32
  netsock : Bool
  serverHash : Table serverHashing

structure TransactionPacket where
  seqno : UInt16
  data : Bytes

structure TransactionHead where
  serverAddr : EtherAddr
  id : UInt16
  requestedType : UInt8
  finished : ℤ
  numPacket : ℕ
  clientSocket : Option ℕ
  lastRxTime : Timespec
  packetList : List TransactionPacket

abbrev TxKey := EtherAddr × UInt16

def txHashing : Hashing TxKey TransactionHead where
  key := fun head => (head.serverAddr, head.id)
  size := 64
  choose := fun k => bucket 64 (by decide) (k.1.octets.map UInt8.toUInt32 ++ [k.2.toUInt32])

inductive Opmode
  | slave
  | master
deriving DecidableEq

/-- The best server is an element of an interface's table, so a reference may be left to one that is
no more. -/
structure ServerRef where
  interface : Bytes
  hwaddr : EtherAddr
deriving DecidableEq

structure Globals where
  interfaces : List Interface
  bestServer : Option ServerRef
  meshIface : Bytes
  opmode : Opmode
  updateCommand : Option (List Char)
  changedDataTypes : List UInt8
  changedDataTypeCount : UInt16
  ifCheck : Timespec
  dataHash : DataHash
  transactionHash : Table txHashing

inductive Output
  | sendto (interface : Bytes) (dest : In6Addr) (buf : Bytes)
  | write (sock : ℕ) (buf : Bytes)
  | close (sock : ℕ)
  | system (command : List Char)

/-- What the rest of the system answers while an event is handled: the time, the link quality that
the mesh interface reports, the ids, and how much a client still reads. -/
structure Env where
  now : Timespec
  getTq : EtherAddr → UInt8
  randomId : ℕ → UInt16
  writes : ℕ

section Interfaces

def firstInterface (g : Globals) : Option Interface := g.interfaces.find? Interface.netsock

def ownAddress (g : Globals) (address : In6Addr) : Bool :=
  g.interfaces.any fun i => address = i.address

def deref (g : Globals) (r : ServerRef) : Option Server :=
  (g.interfaces.find? fun i => i.name = r.interface).bind fun i => i.serverHash.find r.hwaddr

/-- All servers in the order of the loops over interfaces and their tables. -/
def servers (g : Globals) : List (ServerRef × Server) :=
  g.interfaces.flatMap fun i => i.serverHash.entries.map fun s => (⟨i.name, s.hwaddr⟩, s)

/-- The first server of the greatest quality. -/
def better (best : Option ServerRef × ℤ) (s : ServerRef × Server) : Option ServerRef × ℤ :=
  if best.2 < s.2.tq.toNat then (some s.1, s.2.tq.toNat) else best

def setBestServer (g : Globals) : Globals :=
  { g with bestServer := ((servers g).foldl better (none, -1)).1 }

def tokens (interfaces : Bytes) : List Bytes :=
  (interfaces.splitOn 44).filter fun token => !token.isEmpty

def newInterface (name : Bytes) : Interface :=
  ⟨name, ⟨0, 0, 0, 0, 0, 0⟩, fun _ => 0, 0, false, Table.empty⟩

def addInterface (interfaces : List Interface) (token : Bytes) : List Interface :=
  if interfaces.any fun i => i.name = token then interfaces else newInterface token :: interfaces

def setInterfaces (g : Globals) (interfaces : Bytes) : Globals :=
  { g with interfaces := (tokens interfaces).foldl addInterface [], bestServer := none }

/-- The sockets that are closed are opened again where the device is found and the socket can be
bound. -/
def reopen (g : Globals) (device : Bytes → Option (EtherAddr × UInt32)) (bound : Bytes → Bool) :
    Globals :=
  { g with interfaces := g.interfaces.map fun i =>
      if i.netsock then i
      else match device i.name with
        | none => i
        | some (hwaddr, scopeId) =>
          ⟨i.name, hwaddr, macToIpv6 hwaddr, scopeId, bound i.name, i.serverHash⟩ }

def closeSockets (g : Globals) (lost : Bytes → Bool) : Globals :=
  { g with interfaces := g.interfaces.map fun i =>
      if lost i.name then { i with netsock := false } else i }

def sendAlfredPacket (i : Interface) (dest : In6Addr) (buf : Bytes) : List Output :=
  if i.netsock then [.sendto i.name dest buf] else []

end Interfaces

section Changes

def changedDataType (g : Globals) (arg : UInt8) : Globals :=
  if g.updateCommand = none then g
  else if arg ∈ g.changedDataTypes then g
  else { g with
    changedDataTypes := arg :: g.changedDataTypes
    changedDataTypeCount := g.changedDataTypeCount + 1 }

def appendType (size : ℕ) (command : List Char) (t : UInt8) : List Char :=
  command ++ ((' ' :: Nat.toDigits 10 t.toNat).take 4).take (size - command.length - 1)

def executeUpdateCommand (g : Globals) : Globals × List Output :=
  match g.updateCommand with
  | none => (g, [])
  | some updateCommand =>
    if g.changedDataTypeCount = 0 then (g, [])
    else
      let size := updateCommand.length + 4 * g.changedDataTypeCount.toNat + 1
      ({ g with changedDataTypes := [], changedDataTypeCount := 0 },
        [.system (g.changedDataTypes.foldl (appendType size) (updateCommand.take (size - 1)))])

end Changes

section Transactions

def setHead (g : Globals) (head : TransactionHead) : Globals :=
  { g with transactionHash := g.transactionHash.put head }

def transactionAdd (g : Globals) (now : Timespec) (mac : EtherAddr) (id : UInt16) :
    Option (TransactionHead × Globals) :=
  if (g.transactionHash.find (mac, id)).isSome then none
  else
    let head : TransactionHead := ⟨mac, id, 0, 0, 0, none, now, []⟩
    some (head, setHead g head)

def transactionClean (g : Globals) (head : TransactionHead) : Globals :=
  { g with transactionHash := g.transactionHash.remove (txHashing.key head) }

def finishBlock (now : Timespec) (mac : EtherAddr) (g : Globals) (b : Block) : Globals :=
  let (hash, changed) := mergeBlock now mac g.dataHash b
  let g := { g with dataHash := hash }
  if changed then changedDataType g b.type else g

def finishAlfredPushData (now : Timespec) (mac : EtherAddr) (g : Globals) (push : TransactionPacket) :
    Globals :=
  (blocksOf push.data).foldl (finishBlock now mac) g

def unixSockReqDataReply (env : Env) (g : Globals) (sock : ℕ) (id : UInt16) (requestedType : UInt8) :
    List Output :=
  let datasets := g.dataHash.entries.filter fun d => d.data.type = requestedType && Fits d.data
  let replies := datasets.mapIdx fun i d =>
    Output.write sock (pushPacket id (UInt16.ofNat i) d.data.bytes)
  replies.take env.writes ++ [.close sock]

/-- The error code stands in the packet as the machine stores it, here with the low byte first. -/
def statusError (id : UInt16) : Bytes := statusPacket alfredStatusError id (ntohs 1 0)

def unixSockReqDataFinish (env : Env) (g : Globals) (head : TransactionHead) (sock : ℕ) :
    List Output :=
  if head.finished = 1 then unixSockReqDataReply env g sock head.id head.requestedType
  else [.write sock (statusError head.id), .close sock]

/-- The client of a transaction that is over, if it has one. -/
def finishClient (env : Env) (g : Globals) (head : TransactionHead) : List Output :=
  head.clientSocket.elim [] (unixSockReqDataFinish env g head)

end Transactions

section Receive

/-- The packet is kept if there is none of its number. -/
def keepPacket (now : Timespec) (head : TransactionHead) (seqno : UInt16) (data : Bytes) :
    TransactionHead :=
  let head := { head with lastRxTime := now }
  if head.finished ≠ 0 then head
  else if head.packetList.any fun p => p.seqno = seqno then head
  else { head with
    packetList := head.packetList ++ [⟨seqno, data⟩]
    numPacket := head.numPacket + 1 }

def processAlfredPushData (env : Env) (g : Globals) (source : In6Addr) (header : Tlv)
    (body : Bytes) : Globals :=
  match ipv6ToMac source with
  | none => g
  | some mac =>
    if header.length.toNat < 4 then g
    else match takeTx (body.take header.length.toNat) with
      | none => g
      | some ((id, seqno), data) =>
        match g.transactionHash.find (mac, id) with
        | some head => setHead g (keepPacket env.now head seqno data)
        | none =>
          -- A slave waits for the transactions it has created, and for no others.
          if g.opmode ≠ .master then g
          else match transactionAdd g env.now mac id with
            | none => g
            | some (head, g) => setHead g (keepPacket env.now head seqno data)

def serverTq (env : Env) (g : Globals) (mac : EtherAddr) : UInt8 :=
  if g.meshIface ≠ [110, 111, 110, 101] then env.getTq mac else 255

/-- A server is new or keeps its address. -/
def heard (env : Env) (g : Globals) (source : In6Addr) (mac : EtherAddr) (known : Option Server) :
    Server :=
  let server := known.getD ⟨mac, source, env.now, 0⟩
  { server with lastSeen := env.now, tq := serverTq env g mac }

def hearServer (env : Env) (g : Globals) (source : In6Addr) (mac : EtherAddr) (i : Interface) :
    Interface :=
  { i with serverHash := i.serverHash.put (heard env g source mac (i.serverHash.find mac)) }

def onInterface (g : Globals) (name : Bytes) (f : Interface → Interface) : Globals :=
  { g with interfaces := g.interfaces.map fun i => if i.name = name then f i else i }

def processAlfredAnnounceMaster (env : Env) (g : Globals) (interface : Bytes) (source : In6Addr)
    (header : Tlv) : Globals :=
  match ipv6ToMac source with
  | none => g
  | some mac =>
    if header.version ≠ alfredVersion then g
    else if header.length ≠ 0 then g
    else
      let g := onInterface g interface (hearServer env g source mac)
      if g.opmode = .slave then setBestServer g else g

def processAlfredRequest (g : Globals) (interface : Interface) (source : In6Addr) (header : Tlv)
    (body : Bytes) : List Output :=
  if header.version ≠ alfredVersion then []
  else if header.length ≠ 3 then []
  else match body with
    | requestedType :: hi :: lo :: _ =>
      (pushData (ntohs hi lo) .sourceSynced (some requestedType) g.dataHash).flatMap
        (sendAlfredPacket interface source)
    | _ => []

/-- The transaction is over: what it has collected is merged if all of it has arrived. -/
def finishTransaction (env : Env) (g : Globals) (mac : EtherAddr) (head : TransactionHead)
    (seqno : UInt16) : Globals × List Output :=
  let head := { head with finished := if head.numPacket ≠ seqno.toNat then -1 else 1 }
  let g := if head.finished = 1 then
    head.packetList.foldl (finishAlfredPushData env.now mac) g else g
  let g := transactionClean g head
  (g, finishClient env g head)

def processAlfredStatusTxend (env : Env) (g : Globals) (source : In6Addr) (header : Tlv)
    (body : Bytes) : Globals × List Output :=
  if header.version ≠ alfredVersion then (g, [])
  else if header.length ≠ 4 then (g, [])
  else match ipv6ToMac source, takeTx body with
    | some mac, some ((id, seqno), _) =>
      match g.transactionHash.find (mac, id) with
      | none => (g, [])
      | some head =>
        if head.finished ≠ 0 then (g, []) else finishTransaction env g mac head seqno
    | _, _ => (g, [])

def recvAlfredPacket (env : Env) (g : Globals) (interface : Interface) (source : In6Addr)
    (buf : Bytes) : Globals × List Output :=
  if !interface.netsock then (g, [])
  else if !isIpv6Eui64 source then (g, [])
  else if ownAddress g source then (g, [])
  else match takeTlv buf with
    | none => (g, [])
    | some (header, body) =>
      if body.length < header.length.toNat then (g, [])
      else if header.version ≠ alfredVersion then (g, [])
      else if header.type = alfredPushData then (processAlfredPushData env g source header body, [])
      else if header.type = alfredAnnounceMaster then
        (processAlfredAnnounceMaster env g interface.name source header, [])
      else if header.type = alfredRequest then
        (g, processAlfredRequest g interface source header body)
      else if header.type = alfredStatusTxend then
        processAlfredStatusTxend env g source header body
      else (g, [])

end Receive

section Clients

/-- Only a master lets its clients name another source. -/
def clientSource (g : Globals) (interface : Interface) (source : EtherAddr) : Option EtherAddr :=
  if isValidEtherAddr source then
    if source ≠ interface.hwaddr ∧ g.opmode ≠ .master then none else some source
  else some interface.hwaddr

def unixSockAddData (env : Env) (g : Globals) (header : Tlv) (body : Bytes) : Globals :=
  match firstInterface g with
  | none => g
  | some interface =>
    if header.length.toNat < 4 then g
    else match takeBlock ((body.take header.length.toNat).drop 4) with
      | none => g
      | some (b, _) =>
        match clientSource g interface b.source with
        | none => g
        | some source =>
          { g with dataHash := g.dataHash.put ⟨{ b with source := source }, env.now, .sourceLocal⟩ }

/-- A request of another length, or with an id that is in use, gets no answer, and its socket stays
open. -/
def unixSockReqData (env : Env) (g : Globals) (sock : ℕ) (header : Tlv) (body : Bytes) :
    Globals × List Output :=
  if header.length ≠ 3 then (g, [])
  else match body with
    | requestedType :: hi :: lo :: _ =>
      match g.bestServer, firstInterface g with
      | some best, some interface =>
        if g.opmode = .master then
          (g, unixSockReqDataReply env g sock (ntohs hi lo) requestedType)
        else match deref g best with
          | none => (g, [])
          | some server =>
            match transactionAdd g env.now server.hwaddr (ntohs hi lo) with
            | none => (g, [])
            | some (head, g) =>
              (setHead g { head with clientSocket := some sock, requestedType := requestedType },
                sendAlfredPacket interface server.address (requestPacket requestedType (ntohs hi lo)))
      | _, _ => (g, unixSockReqDataReply env g sock (ntohs hi lo) requestedType)
    | _ => (g, [])

def unixSockModesw (g : Globals) (header : Tlv) (body : Bytes) : Globals :=
  if header.length.toNat < 1 then g
  else match body with
    | mode :: _ =>
      if mode = 0 then if g.interfaces.length = 1 then { g with opmode := .slave } else g
      else if mode = 1 then { g with opmode := .master }
      else g
    | [] => g

def unixSockChangeIface (g : Globals) (header : Tlv) (body : Bytes) : Globals :=
  let ifaces := body.takeWhile (· ≠ 0)
  if header.length.toNat < 256 then g
  else if g.opmode = .slave ∧ 44 ∈ ifaces then g
  else setInterfaces g ifaces

def unixSockRead (env : Env) (g : Globals) (sock : ℕ) (buf : Bytes) : Globals × List Output :=
  match takeTlv buf with
  | none => (g, [.close sock])
  | some (header, body) =>
    if body.length < header.length.toNat then (g, [.close sock])
    else if header.version ≠ alfredVersion then (g, [.close sock])
    else if header.type = alfredPushData then (unixSockAddData env g header body, [.close sock])
    else if header.type = alfredRequest then unixSockReqData env g sock header body
    else if header.type = alfredModeswitch then (unixSockModesw g header body, [.close sock])
    else if header.type = alfredChangeInterface then
      (unixSockChangeIface g header body, [.close sock])
    else (g, [.close sock])

end Clients

section Rounds

def alfredInterval : ℤ := 10
def alfredIfCheckInterval : ℤ := 60
def alfredRequestTimeout : ℤ := 10
def alfredServerTimeout : ℤ := 60
def alfredDataTimeout : ℤ := 600

def announceMaster (g : Globals) : List Output :=
  g.interfaces.flatMap fun i => sendAlfredPacket i localmcast (packet alfredAnnounceMaster [])

def syncData (env : Env) (g : Globals) : List Output :=
  let targets := g.interfaces.flatMap fun i => i.serverHash.entries.map fun s => (i, s.address)
  (targets.mapIdx fun n target =>
    (pushData (env.randomId n) .sourceFirstHand none g.dataHash).flatMap
      (sendAlfredPacket target.1 target.2)).flatten

def pushLocalData (env : Env) (g : Globals) : List Output :=
  match g.bestServer.bind (deref g) with
  | none => []
  | some server =>
    (g.interfaces.mapIdx fun n i =>
      (pushData (env.randomId n) .sourceLocal none g.dataHash).flatMap
        (sendAlfredPacket i server.address)).flatten

def expired (now lastSeen : Timespec) (timeout : ℤ) : Bool := timeout ≤ (timeDiff now lastSeen).tvSec

def purgeDatasets (now : Timespec) (g : Globals) : Globals :=
  let stale := fun d : Dataset => expired now d.lastSeen alfredDataTimeout
  let g' := (g.dataHash.entries.filter stale).foldl (fun g d => changedDataType g d.data.type) g
  { g' with dataHash := g.dataHash.filter fun d => !stale d }

def purgeServers (now : Timespec) (g : Globals) : Globals :=
  let stale := fun s : Server => expired now s.lastSeen alfredServerTimeout
  let gone := (servers g).filter fun s => stale s.2
  let g : Globals := { g with
    interfaces := g.interfaces.map fun i =>
      { i with serverHash := i.serverHash.filter fun s => !stale s }
    bestServer := if gone.any fun s => g.bestServer = some s.1 then none else g.bestServer }
  if g.bestServer = none then setBestServer g else g

def purgeTransactions (env : Env) (g : Globals) : Globals × List Output :=
  let stale := fun head : TransactionHead => expired env.now head.lastRxTime alfredRequestTimeout
  ({ g with transactionHash := g.transactionHash.filter fun head => !stale head },
    (g.transactionHash.entries.filter stale).flatMap (finishClient env g))

def purgeData (env : Env) (g : Globals) : Globals × List Output :=
  purgeTransactions env (purgeServers env.now (purgeDatasets env.now g))

/-- The devices are looked at once a minute. -/
def checkIfSockets (env : Env) (g : Globals) (lost : Bytes → Bool) : Globals :=
  if (timeDiff env.now g.ifCheck).tvSec < alfredIfCheckInterval then g
  else closeSockets { g with ifCheck := env.now } lost

def serverRound (env : Env) (g : Globals) (lost : Bytes → Bool) : Globals × List Output :=
  let sent := if g.opmode = .master then announceMaster g ++ syncData env g
    else pushLocalData env g
  let (g, finished) := purgeData env g
  let g := checkIfSockets env g lost
  let (g, executed) := executeUpdateCommand g
  (g, sent ++ (finished ++ executed))

end Rounds

section System

/-- What wakes the main loop: a packet, a client, a socket that fails or can be opened again, or no
one for the length of an interval. -/
inductive Event
  | recv (interface : Bytes) (source : In6Addr) (buf : Bytes)
  | client (sock : ℕ) (buf : Bytes)
  | reopen (device : Bytes → Option (EtherAddr × UInt32)) (bound : Bytes → Bool)
  | error (lost : Bytes → Bool)
  | round (lost : Bytes → Bool)

def step (env : Env) (g : Globals) : Event → Globals × List Output
  | .recv interface source buf =>
    match g.interfaces.find? fun i => i.name = interface with
    | none => (g, [])
    | some i => recvAlfredPacket env g i source buf
  | .client sock buf => unixSockRead env g sock buf
  | .reopen device bound => (reopen g device bound, [])
  | .error lost => (closeSockets g lost, [])
  | .round lost => serverRound env g lost

/-- The command line. -/
structure Options where
  opmode : Opmode
  interfaces : Bytes
  meshIface : Bytes
  updateCommand : Option (List Char)

def globalsInit (options : Options) (now : Timespec) : Globals where
  interfaces := (tokens options.interfaces).foldl addInterface []
  bestServer := none
  meshIface := options.meshIface
  opmode := options.opmode
  updateCommand := options.updateCommand
  changedDataTypes := []
  changedDataTypeCount := 0
  ifCheck := now
  dataHash := Table.empty
  transactionHash := Table.empty

end System

end NexFi.AlfredServer
