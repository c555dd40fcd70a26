import NexFi.AlfredServer

/-!
# What one step of the daemon does

Most events leave both tables as they are. Otherwise a packet of a transaction was
kept, a transaction ended, a client handed over data or asked for some, or what has
not been heard of for too long was dropped.
-/

namespace NexFi.AlfredServer
open AlfredPacket AlfredData ChainTable

def closes (out : List Output) : List ℕ :=
  out.filterMap fun
    | .close sock => some sock
    | _ => none

/-- The running transactions. -/
abbrev heads (g : Globals) : TxKey → Option TransactionHead := g.transactionHash.find

section Reads

/-- The packet of this number of a transaction. -/
def ReadsPush (buf : Bytes) (id seqno : UInt16) (data : Bytes) : Prop :=
  ∃ header body, takeTlv buf = some (header, body) ∧ header.type = alfredPushData ∧
    header.length.toNat ≤ body.length ∧
    takeTx (body.take header.length.toNat) = some ((id, seqno), data)

/-- The end of a transaction of so many packets. -/
def ReadsTxend (buf : Bytes) (id seqno : UInt16) : Prop :=
  ∃ header body rest, takeTlv buf = some (header, body) ∧ header.type = alfredStatusTxend ∧
    header.length = 4 ∧ takeTx body = some ((id, seqno), rest)

/-- The block that a client hands over. -/
def ReadsData (buf : Bytes) (b : Block) : Prop :=
  ∃ header body rest, takeTlv buf = some (header, body) ∧ header.type = alfredPushData ∧
    header.length.toNat ≤ body.length ∧
    takeBlock ((body.take header.length.toNat).drop 4) = some (b, rest)

def ReadsRequest (buf : Bytes) (requestedType : UInt8) (id : UInt16) : Prop :=
  ∃ header hi lo rest, takeTlv buf = some (header, requestedType :: hi :: lo :: rest) ∧
    header.type = alfredRequest ∧ header.length = 3 ∧ id = ntohs hi lo

end Reads

def freshHead (mac : EtherAddr) (id : UInt16) (now : Timespec) : TransactionHead :=
  ⟨mac, id, 0, 0, 0, none, now, []⟩

/-- The transaction that a pushed packet belongs to. -/
def HeadFor (g : Globals) (now : Timespec) (mac : EtherAddr) (id : UInt16) (head : TransactionHead) :
    Prop :=
  heads g (mac, id) = some head ∨
    heads g (mac, id) = none ∧ g.opmode = .master ∧ head = freshHead mac id now

/-- The data after all that a transaction has collected is merged. -/
def mergeHead (now : Timespec) (mac : EtherAddr) (hash : DataHash) (head : TransactionHead) : DataHash :=
  mergeBlocks now mac hash (head.packetList.flatMap fun p => blocksOf p.data)

/-- A client's event without a change closes the client's socket. -/
def ownSocket : Event → List ℕ
  | .client sock _ => [sock]
  | _ => []

inductive Change (env : Env) (g : Globals) : Event → Globals → List ℕ → Prop
  | quiet {e : Event} {g' : Globals} (hdata : g'.dataHash = g.dataHash)
      (htx : g'.transactionHash = g.transactionHash) : Change env g e g' (ownSocket e)
  | leaked {sock : ℕ} {buf : Bytes} (hlost : (∃ header body, takeTlv buf = some (header, body) ∧
      header.type = alfredRequest ∧ header.length ≠ 3) ∨
      ∃ requestedType id, ReadsRequest buf requestedType id ∧
        ∀ server, g.bestServer.bind (deref g) = some server →
          (heads g (server.hwaddr, id)).isSome) :
      Change env g (.client sock buf) g []
  | pushed {name : Bytes} {source : In6Addr} {buf data : Bytes} {mac : EtherAddr}
      {id seqno : UInt16} {head : TransactionHead} {g' : Globals} (hmac : ipv6ToMac source = some mac)
      (hread : ReadsPush buf id seqno data) (hhead : HeadFor g env.now mac id head)
      (hdata : g'.dataHash = g.dataHash)
      (htx : heads g' = Function.update (heads g) (mac, id)
        (some (keepPacket env.now head seqno data))) : Change env g (.recv name source buf) g' []
  | ended {name : Bytes} {source : In6Addr} {buf : Bytes} {mac : EtherAddr} {id seqno : UInt16}
      {head : TransactionHead} {g' : Globals} (hmac : ipv6ToMac source = some mac)
      (hread : ReadsTxend buf id seqno) (hhead : heads g (mac, id) = some head)
      (hfinished : head.finished = 0)
      (hdata : g'.dataHash = if head.numPacket = seqno.toNat then
        mergeHead env.now mac g.dataHash head else g.dataHash)
      (htx : heads g' = Function.update (heads g) (mac, id) none) :
      Change env g (.recv name source buf) g' head.clientSocket.toList
  | handed {sock : ℕ} {buf : Bytes} {b : Block} {source : EtherAddr} {interface : Interface}
      {g' : Globals} (hread : ReadsData buf b) (hinterface : firstInterface g = some interface)
      (hsource : clientSource g interface b.source = some source)
      (hdata : g'.dataHash = g.dataHash.put ⟨{ b with source := source }, env.now, .sourceLocal⟩)
      (htx : g'.transactionHash = g.transactionHash) : Change env g (.client sock buf) g' [sock]
  | asked {sock : ℕ} {buf : Bytes} {requestedType : UInt8} {server : Server} {id : UInt16}
      {g' : Globals} (hread : ReadsRequest buf requestedType id) (hmode : g.opmode ≠ .master)
      (hserver : g.bestServer.bind (deref g) = some server)
      (hnone : heads g (server.hwaddr, id) = none) (hdata : g'.dataHash = g.dataHash)
      (htx : heads g' = Function.update (heads g) (server.hwaddr, id)
        (some { freshHead server.hwaddr id env.now with
          requestedType := requestedType, clientSocket := some sock })) :
      Change env g (.client sock buf) g' []
  | purged {lost : Bytes → Bool} {g' : Globals}
      (hdata : g'.dataHash =
        g.dataHash.filter fun d => !expired env.now d.lastSeen alfredDataTimeout)
      (htx : g'.transactionHash =
        g.transactionHash.filter fun head => !expired env.now head.lastRxTime alfredRequestTimeout) :
      Change env g (.round lost) g' ((g.transactionHash.entries.filter fun head =>
        expired env.now head.lastRxTime alfredRequestTimeout).filterMap TransactionHead.clientSocket)

section Frame
variable (g : Globals)

@[simp] theorem closes_append (out out' : List Output) :
    closes (out ++ out') = closes out ++ closes out' := List.filterMap_append

theorem closes_flatMap {α : Type} (xs : List α) (f : α → List Output) :
    closes (xs.flatMap f) = xs.flatMap fun x => closes (f x) := by
  induction xs with
  | nil => rfl
  | cons x xs ih => rw [List.flatMap_cons, closes_append, ih, List.flatMap_cons]

theorem closes_eq_nil {out : List Output} (h : ∀ o ∈ out, ∀ sock, o ≠ .close sock) :
    closes out = [] := by
  rw [closes, List.filterMap_eq_nil_iff]
  intro o ho
  cases o with
  | close sock => exact absurd rfl (h _ ho sock)
  | _ => rfl

@[simp] theorem closes_sendAlfredPacket (i : Interface) (dest : In6Addr) (buf : Bytes) :
    closes (sendAlfredPacket i dest buf) = [] := by
  unfold sendAlfredPacket
  split_ifs <;> rfl

theorem closes_unixSockReqDataReply (env : Env) (sock : ℕ) (id : UInt16) (requestedType : UInt8) :
    closes (unixSockReqDataReply env g sock id requestedType) = [sock] := by
  rw [unixSockReqDataReply, closes_append, closes_eq_nil]
  · rfl
  · intro o ho sock' hclose
    obtain ⟨i, hi, hreply⟩ := List.mem_mapIdx.mp (List.mem_of_mem_take ho)
    rw [hclose] at hreply
    cases hreply

theorem closes_finishClient (env : Env) (head : TransactionHead) :
    closes (finishClient env g head) = head.clientSocket.toList := by
  unfold finishClient
  cases head.clientSocket with
  | none => rfl
  | some sock =>
    simp only [Option.elim_some, unixSockReqDataFinish, Option.toList_some]
    split_ifs
    · exact closes_unixSockReqDataReply g env sock _ _
    · rfl

/-- A client is written to, and its socket is closed. -/
def ToClient : Output → Prop
  | .write .. => True
  | .close _ => True
  | _ => False

theorem toClient_unixSockReqDataReply {env : Env} {sock : ℕ} {id : UInt16} {requestedType : UInt8}
    {o : Output} (h : o ∈ unixSockReqDataReply env g sock id requestedType) : ToClient o := by
  rcases List.mem_append.mp h with h | h
  · obtain ⟨i, hi, rfl⟩ := List.mem_mapIdx.mp (List.mem_of_mem_take h)
    trivial
  · rw [List.mem_singleton.mp h]
    trivial

theorem toClient_finishClient {env : Env} {head : TransactionHead} {o : Output}
    (h : o ∈ finishClient env g head) : ToClient o := by
  unfold finishClient at h
  cases hsock : head.clientSocket with
  | none =>
    rw [hsock] at h
    cases h
  | some sock =>
    rw [hsock, Option.elim_some, unixSockReqDataFinish] at h
    split_ifs at h
    · exact toClient_unixSockReqDataReply g h
    · rcases List.mem_cons.mp h with rfl | h
      · trivial
      · rw [List.mem_singleton.mp h]
        trivial

@[simp] theorem changedDataType_dataHash (t : UInt8) : (changedDataType g t).dataHash = g.dataHash := by
  unfold changedDataType
  split_ifs <;> rfl

@[simp] theorem changedDataType_transactionHash (t : UInt8) :
    (changedDataType g t).transactionHash = g.transactionHash := by
  unfold changedDataType
  split_ifs <;> rfl

theorem finishBlock_dataHash (now : Timespec) (mac : EtherAddr) (b : Block) :
    (finishBlock now mac g b).dataHash = (mergeBlock now mac g.dataHash b).1 := by
  unfold finishBlock
  cases mergeBlock now mac g.dataHash b with
  | mk hash changed => cases changed <;> simp

theorem finishBlock_transactionHash (now : Timespec) (mac : EtherAddr) (b : Block) :
    (finishBlock now mac g b).transactionHash = g.transactionHash := by
  unfold finishBlock
  cases mergeBlock now mac g.dataHash b with
  | mk hash changed => cases changed <;> simp

theorem finishAlfredPushData_tables (now : Timespec) (mac : EtherAddr) (push : TransactionPacket) :
    (finishAlfredPushData now mac g push).dataHash =
        mergeBlocks now mac g.dataHash (blocksOf push.data) ∧
      (finishAlfredPushData now mac g push).transactionHash = g.transactionHash := by
  unfold finishAlfredPushData
  induction blocksOf push.data generalizing g with
  | nil => exact ⟨rfl, rfl⟩
  | cons b bs ih =>
    obtain ⟨hdata, htx⟩ := ih (finishBlock now mac g b)
    rw [finishBlock_dataHash] at hdata
    rw [finishBlock_transactionHash] at htx
    exact ⟨hdata, htx⟩

theorem finishPackets_tables (now : Timespec) (mac : EtherAddr) (ps : List TransactionPacket) :
    (ps.foldl (finishAlfredPushData now mac) g).dataHash =
        mergeBlocks now mac g.dataHash (ps.flatMap fun p => blocksOf p.data) ∧
      (ps.foldl (finishAlfredPushData now mac) g).transactionHash = g.transactionHash := by
  induction ps generalizing g with
  | nil => exact ⟨rfl, rfl⟩
  | cons p ps ih =>
    obtain ⟨hdata, htx⟩ := ih (finishAlfredPushData now mac g p)
    obtain ⟨hdata', htx'⟩ := finishAlfredPushData_tables g now mac p
    rw [hdata', ← mergeBlocks_append] at hdata
    rw [htx'] at htx
    exact ⟨hdata, htx⟩

theorem heads_setHead (head : TransactionHead) :
    heads (setHead g head) = Function.update (heads g) (head.serverAddr, head.id) (some head) := by
  funext k
  rw [Function.update_apply]
  simp only [heads, setHead, Table.find_put, eq_comm]
  rfl

theorem heads_transactionClean (head : TransactionHead) :
    heads (transactionClean g head) = Function.update (heads g) (head.serverAddr, head.id) none := by
  funext k
  rw [Function.update_apply]
  exact Table.find_remove _ _ k

theorem head_key {mac : EtherAddr} {id : UInt16} {head : TransactionHead}
    (h : heads g (mac, id) = some head) : head.serverAddr = mac ∧ head.id = id := by
  have hkey : (head.serverAddr, head.id) = (mac, id) := Table.find_key _ h
  exact ⟨congrArg Prod.fst hkey, congrArg Prod.snd hkey⟩

theorem transactionAdd_eq_some (now : Timespec) {mac : EtherAddr} {id : UInt16}
    (h : heads g (mac, id) = none) :
    transactionAdd g now mac id = some (freshHead mac id now, setHead g (freshHead mac id now)) := by
  rw [transactionAdd, show g.transactionHash.find (mac, id) = none from h]
  rfl

theorem transactionAdd_eq_none {now : Timespec} {mac : EtherAddr} {id : UInt16}
    {head : TransactionHead} (h : heads g (mac, id) = some head) :
    transactionAdd g now mac id = none := by
  rw [transactionAdd, show g.transactionHash.find (mac, id) = some head from h]
  rfl

theorem keepPacket_key (now : Timespec) (head : TransactionHead) (seqno : UInt16) (data : Bytes) :
    (keepPacket now head seqno data).serverAddr = head.serverAddr ∧
      (keepPacket now head seqno data).id = head.id := by
  simp only [keepPacket]
  split_ifs <;> exact ⟨rfl, rfl⟩

end Frame

section Cases

theorem ite_cases {α : Type} {motive : α → Prop} {p : Prop} [Decidable p] {a b : α} (ha : motive a)
    (hb : motive b) : motive (if p then a else b) := by
  split_ifs
  · exact ha
  · exact hb

variable (env : Env) (g : Globals)

theorem processAlfredPushData_change (name : Bytes) {source : In6Addr} {buf body : Bytes} {header : Tlv}
    (hbuf : takeTlv buf = some (header, body)) (hlength : header.length.toNat ≤ body.length)
    (htype : header.type = alfredPushData) :
    Change env g (.recv name source buf) (processAlfredPushData env g source header body) [] := by
  unfold processAlfredPushData
  cases hmac : ipv6ToMac source with
  | none => exact .quiet rfl rfl
  | some mac =>
    by_cases hshort : header.length.toNat < 4
    · simp only [if_pos hshort]
      exact .quiet rfl rfl
    simp only [if_neg hshort]
    cases htx : takeTx (body.take header.length.toNat) with
    | none => exact .quiet rfl rfl
    | some tx =>
      obtain ⟨⟨id, seqno⟩, data⟩ := tx
      have hread : ReadsPush buf id seqno data := ⟨header, body, hbuf, htype, hlength, htx⟩
      cases hfind : g.transactionHash.find (mac, id) with
      | some head =>
        obtain ⟨hmac', hid⟩ := head_key g hfind
        obtain ⟨hkeep, hkeep'⟩ := keepPacket_key env.now head seqno data
        simp only [hfind]
        refine .pushed hmac hread (.inl hfind) rfl ?_
        rw [heads_setHead, hkeep, hkeep', hmac', hid]
      | none =>
        by_cases hmode : g.opmode = .master
        · simp only [hfind, hmode, ne_eq, not_true_eq_false, if_false,
            transactionAdd_eq_some g env.now hfind]
          obtain ⟨hkeep, hkeep'⟩ := keepPacket_key env.now (freshHead mac id env.now) seqno data
          refine .pushed hmac hread (.inr ⟨hfind, hmode, rfl⟩) rfl ?_
          rw [heads_setHead, heads_setHead, hkeep, hkeep']
          exact Function.update_idem _ _ _
        · simp only [hfind, ne_eq, hmode, not_false_eq_true, if_true]
          exact .quiet rfl rfl

theorem processAlfredAnnounceMaster_tables (interface : Bytes) (source : In6Addr) (header : Tlv) :
    (processAlfredAnnounceMaster env g interface source header).dataHash = g.dataHash ∧
      (processAlfredAnnounceMaster env g interface source header).transactionHash =
        g.transactionHash := by
  unfold processAlfredAnnounceMaster
  cases ipv6ToMac source with
  | none => exact ⟨rfl, rfl⟩
  | some mac =>
    simp only
    split_ifs <;> exact ⟨rfl, rfl⟩

theorem finishTransaction_spec (mac : EtherAddr) (head : TransactionHead) (seqno : UInt16) :
    (finishTransaction env g mac head seqno).1.dataHash = (if head.numPacket = seqno.toNat then
        mergeHead env.now mac g.dataHash head else g.dataHash) ∧
      heads (finishTransaction env g mac head seqno).1 =
        Function.update (heads g) (head.serverAddr, head.id) none ∧
      closes (finishTransaction env g mac head seqno).2 = head.clientSocket.toList := by
  unfold finishTransaction
  refine ⟨?_, ?_, closes_finishClient _ _ _⟩
  · by_cases hall : head.numPacket = seqno.toNat
    · simp only [hall, ne_eq, not_true_eq_false, if_false, if_true]
      exact (finishPackets_tables g env.now mac head.packetList).1
    · simp [hall, transactionClean]
  · rw [heads_transactionClean]
    by_cases hall : head.numPacket = seqno.toNat
    · simp only [hall, ne_eq, not_true_eq_false, if_false, if_true]
      rw [heads, (finishPackets_tables g env.now mac head.packetList).2]
    · simp [hall]

theorem processAlfredStatusTxend_change (name : Bytes) {source : In6Addr} {buf body : Bytes}
    {header : Tlv} (hbuf : takeTlv buf = some (header, body))
    (htype : header.type = alfredStatusTxend) :
    Change env g (.recv name source buf) (processAlfredStatusTxend env g source header body).1
      (closes (processAlfredStatusTxend env g source header body).2) := by
  unfold processAlfredStatusTxend
  by_cases hversion : header.version = alfredVersion
  swap
  · simp only [ne_eq, hversion, not_false_eq_true, if_true]
    exact .quiet rfl rfl
  by_cases hlength : header.length = 4
  swap
  · simp only [hversion, ne_eq, not_true_eq_false, if_false, hlength, not_false_eq_true, if_true]
    exact .quiet rfl rfl
  simp only [hversion, hlength, ne_eq, not_true_eq_false, if_false]
  cases hmac : ipv6ToMac source with
  | none => exact .quiet rfl rfl
  | some mac =>
    cases htx : takeTx body with
    | none => exact .quiet rfl rfl
    | some tx =>
      obtain ⟨⟨id, seqno⟩, rest⟩ := tx
      have hread : ReadsTxend buf id seqno := ⟨header, body, rest, hbuf, htype, hlength, htx⟩
      simp only
      cases hfind : g.transactionHash.find (mac, id) with
      | none => exact .quiet rfl rfl
      | some head =>
        by_cases hfinished : head.finished = 0
        swap
        · simp only [hfinished, not_false_eq_true, if_true]
          exact .quiet rfl rfl
        obtain ⟨hmac', hid⟩ := head_key g hfind
        obtain ⟨hdata, hheads, hcloses⟩ := finishTransaction_spec env g mac head seqno
        simp only [hfinished, not_true_eq_false, if_false, hcloses]
        refine .ended hmac hread hfind hfinished hdata ?_
        rw [hheads, hmac', hid]

theorem unixSockAddData_change (sock : ℕ) {buf body : Bytes} {header : Tlv}
    (hbuf : takeTlv buf = some (header, body)) (hlength : header.length.toNat ≤ body.length)
    (htype : header.type = alfredPushData) :
    Change env g (.client sock buf) (unixSockAddData env g header body) [sock] := by
  unfold unixSockAddData
  cases hinterface : firstInterface g with
  | none => exact .quiet rfl rfl
  | some interface =>
    by_cases hshort : header.length.toNat < 4
    · simp only [if_pos hshort]
      exact .quiet rfl rfl
    simp only [if_neg hshort]
    cases hblock : takeBlock ((body.take header.length.toNat).drop 4) with
    | none => exact .quiet rfl rfl
    | some taken =>
      obtain ⟨b, rest⟩ := taken
      have hread : ReadsData buf b := ⟨header, body, rest, hbuf, htype, hlength, hblock⟩
      simp only
      cases hsource : clientSource g interface b.source with
      | none => exact .quiet rfl rfl
      | some source => exact .handed hread hinterface hsource rfl rfl

theorem unixSockReqData_change (sock : ℕ) {buf body : Bytes} {header : Tlv}
    (hbuf : takeTlv buf = some (header, body)) (hlength : header.length.toNat ≤ body.length)
    (htype : header.type = alfredRequest) :
    Change env g (.client sock buf) (unixSockReqData env g sock header body).1
      (closes (unixSockReqData env g sock header body).2) := by
  have hreply : ∀ id requestedType, Change env g (.client sock buf) g
      (closes (unixSockReqDataReply env g sock id requestedType)) := by
    intro id requestedType
    rw [closes_unixSockReqDataReply]
    exact .quiet rfl rfl
  unfold unixSockReqData
  by_cases hthree : header.length = 3
  swap
  · simp only [ne_eq, hthree, not_false_eq_true, if_true]
    exact .leaked (.inl ⟨header, body, hbuf, htype, hthree⟩)
  simp only [ne_eq, hthree, not_true_eq_false, if_false]
  rw [hthree] at hlength
  obtain ⟨requestedType, hi, lo, rest, rfl⟩ : ∃ requestedType hi lo rest,
      body = requestedType :: hi :: lo :: rest := by
    have hthree' : (3 : UInt16).toNat = 3 := rfl
    match body, hlength with
    | requestedType :: hi :: lo :: rest, _ => exact ⟨requestedType, hi, lo, rest, rfl⟩
    | [], h | [_], h | [_, _], h => simp [hthree'] at h
  have hread : ReadsRequest buf requestedType (ntohs hi lo) :=
    ⟨header, hi, lo, rest, hbuf, htype, hthree, rfl⟩
  simp only
  cases hbest : g.bestServer with
  | none => exact hreply _ _
  | some best =>
    cases hinterface : firstInterface g with
    | none => exact hreply _ _
    | some interface =>
      by_cases hmode : g.opmode = .master
      · simp only [hmode, if_true]
        exact hreply _ _
      simp only [hmode, if_false]
      cases hderef : deref g best with
      | none =>
        refine .leaked (.inr ⟨requestedType, ntohs hi lo, hread, fun server hserver => ?_⟩)
        rw [hbest, Option.bind_some, hderef] at hserver
        cases hserver
      | some server =>
        have hserver : g.bestServer.bind (deref g) = some server := by
          rw [hbest, Option.bind_some, hderef]
        cases hfind : heads g (server.hwaddr, ntohs hi lo) with
        | some head =>
          simp only [transactionAdd_eq_none g hfind]
          refine .leaked (.inr ⟨requestedType, ntohs hi lo, hread, fun server' hserver' => ?_⟩)
          rw [hserver, Option.some_inj] at hserver'
          rw [← hserver', hfind]
          rfl
        | none =>
          simp only [transactionAdd_eq_some g env.now hfind, closes_sendAlfredPacket]
          refine .asked hread hmode hserver hfind rfl ?_
          rw [heads_setHead, heads_setHead]
          exact Function.update_idem _ _ _

theorem unixSockModesw_tables (header : Tlv) (body : Bytes) :
    (unixSockModesw g header body).dataHash = g.dataHash ∧
      (unixSockModesw g header body).transactionHash = g.transactionHash := by
  unfold unixSockModesw
  cases body <;> simp only <;> split_ifs <;> exact ⟨rfl, rfl⟩

theorem unixSockChangeIface_tables (header : Tlv) (body : Bytes) :
    (unixSockChangeIface g header body).dataHash = g.dataHash ∧
      (unixSockChangeIface g header body).transactionHash = g.transactionHash := by
  simp only [unixSockChangeIface]
  split_ifs <;> exact ⟨rfl, rfl⟩

/-- A packet is dropped or is handled by its type. -/
theorem recvAlfredPacket_cases {motive : Globals × List Output → Prop} (i : Interface)
    (source : In6Addr) (buf : Bytes) (hquiet : motive (g, []))
    (hpush : ∀ header body, takeTlv buf = some (header, body) →
      header.length.toNat ≤ body.length → header.type = alfredPushData →
      motive (processAlfredPushData env g source header body, []))
    (hannounce : ∀ header, motive (processAlfredAnnounceMaster env g i.name source header, []))
    (hrequest : ∀ header body, motive (g, processAlfredRequest g i source header body))
    (htxend : ∀ header body, takeTlv buf = some (header, body) → header.type = alfredStatusTxend →
      motive (processAlfredStatusTxend env g source header body)) :
    motive (recvAlfredPacket env g i source buf) := by
  rw [recvAlfredPacket]
  refine ite_cases hquiet (ite_cases hquiet (ite_cases hquiet ?_))
  cases hbuf : takeTlv buf with
  | none => exact hquiet
  | some packet =>
    obtain ⟨header, body⟩ := packet
    by_cases hshort : body.length < header.length.toNat
    · simp only [if_pos hshort]
      exact hquiet
    simp only [if_neg hshort]
    refine ite_cases hquiet ?_
    by_cases htype : header.type = alfredPushData
    · rw [if_pos htype]
      exact hpush header body hbuf (Nat.le_of_not_lt hshort) htype
    rw [if_neg htype]
    refine ite_cases (hannounce header) (ite_cases (hrequest header body) ?_)
    by_cases hend : header.type = alfredStatusTxend
    · rw [if_pos hend]
      exact htxend header body hbuf hend
    · rw [if_neg hend]
      exact hquiet

/-- What a client writes is dropped or is handled by its type. -/
theorem unixSockRead_cases {motive : Globals × List Output → Prop} (sock : ℕ) (buf : Bytes)
    (hquiet : motive (g, [.close sock]))
    (hpush : ∀ header body, takeTlv buf = some (header, body) →
      header.length.toNat ≤ body.length → header.type = alfredPushData →
      motive (unixSockAddData env g header body, [.close sock]))
    (hrequest : ∀ header body, takeTlv buf = some (header, body) →
      header.length.toNat ≤ body.length → header.type = alfredRequest →
      motive (unixSockReqData env g sock header body))
    (hmode : ∀ header body, motive (unixSockModesw g header body, [.close sock]))
    (hiface : ∀ header body, motive (unixSockChangeIface g header body, [.close sock])) :
    motive (unixSockRead env g sock buf) := by
  rw [unixSockRead]
  cases hbuf : takeTlv buf with
  | none => exact hquiet
  | some packet =>
    obtain ⟨header, body⟩ := packet
    by_cases hshort : body.length < header.length.toNat
    · simp only [if_pos hshort]
      exact hquiet
    simp only [if_neg hshort]
    refine ite_cases hquiet ?_
    by_cases htype : header.type = alfredPushData
    · rw [if_pos htype]
      exact hpush header body hbuf (Nat.le_of_not_lt hshort) htype
    rw [if_neg htype]
    by_cases hreq : header.type = alfredRequest
    · rw [if_pos hreq]
      exact hrequest header body hbuf (Nat.le_of_not_lt hshort) hreq
    rw [if_neg hreq]
    exact ite_cases (hmode header body) (ite_cases (hiface header body) hquiet)

theorem closes_processAlfredRequest (i : Interface) (source : In6Addr) (header : Tlv) (body : Bytes) :
    closes (processAlfredRequest g i source header body) = [] := by
  unfold processAlfredRequest
  split_ifs
  · rfl
  · rfl
  split
  · rw [closes_flatMap]
    simp
  · rfl

theorem recvAlfredPacket_change (name : Bytes) (interface : Interface) (source : In6Addr)
    (buf : Bytes) : Change env g (.recv name source buf) (recvAlfredPacket env g interface source buf).1
      (closes (recvAlfredPacket env g interface source buf).2) := by
  refine recvAlfredPacket_cases
    (motive := fun r => Change env g (.recv name source buf) r.1 (closes r.2)) env g interface source buf
    (.quiet rfl rfl) (fun header body hbuf hlength htype => ?_) (fun header => ?_)
    (fun header body => ?_) fun header body hbuf htype => ?_
  · exact processAlfredPushData_change env g name hbuf hlength htype
  · obtain ⟨hdata, htx⟩ := processAlfredAnnounceMaster_tables env g interface.name source header
    exact .quiet hdata htx
  · simp only [closes_processAlfredRequest]
    exact .quiet rfl rfl
  · exact processAlfredStatusTxend_change env g name hbuf htype

theorem unixSockRead_change (sock : ℕ) (buf : Bytes) :
    Change env g (.client sock buf) (unixSockRead env g sock buf).1
      (closes (unixSockRead env g sock buf).2) := by
  refine unixSockRead_cases (motive := fun r => Change env g (.client sock buf) r.1 (closes r.2)) env g
    sock buf (.quiet rfl rfl) (fun header body hbuf hlength htype => ?_)
    (fun header body hbuf hlength htype => ?_) (fun header body => ?_) fun header body => ?_
  · exact unixSockAddData_change env g sock hbuf hlength htype
  · exact unixSockReqData_change env g sock hbuf hlength htype
  · obtain ⟨hdata, htx⟩ := unixSockModesw_tables g header body
    exact .quiet hdata htx
  · obtain ⟨hdata, htx⟩ := unixSockChangeIface_tables g header body
    exact .quiet hdata htx

theorem purgeDatasets_tables (now : Timespec) :
    (purgeDatasets now g).dataHash = (g.dataHash.filter fun d => !expired now d.lastSeen alfredDataTimeout) ∧
      (purgeDatasets now g).transactionHash = g.transactionHash := by
  refine ⟨rfl, ?_⟩
  unfold purgeDatasets
  simp only
  induction g.dataHash.entries.filter (fun d => expired now d.lastSeen alfredDataTimeout)
    generalizing g with
  | nil => rfl
  | cons d ds ih => rw [List.foldl_cons, ih, changedDataType_transactionHash]

theorem purgeServers_tables (now : Timespec) :
    (purgeServers now g).dataHash = g.dataHash ∧
      (purgeServers now g).transactionHash = g.transactionHash := by
  simp only [purgeServers]
  split_ifs <;> exact ⟨rfl, rfl⟩

theorem executeUpdateCommand_tables :
    (executeUpdateCommand g).1.dataHash = g.dataHash ∧
      (executeUpdateCommand g).1.transactionHash = g.transactionHash ∧
      closes (executeUpdateCommand g).2 = [] := by
  unfold executeUpdateCommand
  cases g.updateCommand with
  | none => exact ⟨rfl, rfl, rfl⟩
  | some command =>
    simp only
    split_ifs <;> exact ⟨rfl, rfl, rfl⟩

theorem checkIfSockets_tables (lost : Bytes → Bool) :
    (checkIfSockets env g lost).dataHash = g.dataHash ∧
      (checkIfSockets env g lost).transactionHash = g.transactionHash := by
  unfold checkIfSockets
  split_ifs <;> exact ⟨rfl, rfl⟩

/-- What a node sends on its own in a round. -/
def roundSends : List Output :=
  if g.opmode = .master then announceMaster g ++ syncData env g else pushLocalData env g

theorem mem_roundSends {o : Output} (h : o ∈ roundSends env g) : ∃ i ∈ g.interfaces, ∃ dest buf,
    o ∈ sendAlfredPacket i dest buf ∧ (buf = packet alfredAnnounceMaster [] ∨
      ∃ id level, buf ∈ pushData id level none g.dataHash ∧ level ≠ .sourceSynced) := by
  unfold roundSends at h
  split_ifs at h
  · rcases List.mem_append.mp h with h | h
    · obtain ⟨i, hi, ho⟩ := List.mem_flatMap.mp h
      exact ⟨i, hi, _, _, ho, .inl rfl⟩
    · obtain ⟨os, hos, ho⟩ := List.mem_flatten.mp h
      obtain ⟨n, hn, rfl⟩ := List.mem_mapIdx.mp hos
      obtain ⟨buf, hbuf, ho⟩ := List.mem_flatMap.mp ho
      obtain ⟨i, hi, htarget⟩ := List.mem_flatMap.mp (List.getElem_mem hn)
      obtain ⟨server, -, heq⟩ := List.mem_map.mp htarget
      rw [← heq] at ho
      exact ⟨i, hi, _, buf, ho, .inr ⟨_, _, hbuf, by decide⟩⟩
  · unfold pushLocalData at h
    cases hserver : g.bestServer.bind (deref g) with
    | none =>
      rw [hserver] at h
      cases h
    | some server =>
      rw [hserver] at h
      obtain ⟨os, hos, ho⟩ := List.mem_flatten.mp h
      obtain ⟨n, hn, rfl⟩ := List.mem_mapIdx.mp hos
      obtain ⟨buf, hbuf, ho⟩ := List.mem_flatMap.mp ho
      exact ⟨_, List.getElem_mem hn, _, buf, ho, .inr ⟨_, _, hbuf, by decide⟩⟩

theorem mem_sendAlfredPacket {i : Interface} {dest : In6Addr} {buf : Bytes} {o : Output} :
    o ∈ sendAlfredPacket i dest buf ↔ i.netsock = true ∧ o = .sendto i.name dest buf := by
  unfold sendAlfredPacket
  split_ifs with h <;> simp [h]

theorem closes_roundSends : closes (roundSends env g) = [] := by
  refine closes_eq_nil fun o ho sock hclose => ?_
  obtain ⟨i, -, dest, buf, hsend, -⟩ := mem_roundSends env g ho
  rw [hclose, mem_sendAlfredPacket] at hsend
  cases hsend.2

theorem closes_purgeTransactions : closes (purgeTransactions env g).2 =
    (g.transactionHash.entries.filter fun head =>
      expired env.now head.lastRxTime alfredRequestTimeout).filterMap TransactionHead.clientSocket := by
  rw [purgeTransactions, closes_flatMap]
  simp only [closes_finishClient]
  rw [← List.filterMap_eq_flatMap_toList]

theorem serverRound_change (lost : Bytes → Bool) :
    Change env g (.round lost) (serverRound env g lost).1 (closes (serverRound env g lost).2) := by
  obtain ⟨hdata₁, htx₁⟩ := purgeDatasets_tables g env.now
  obtain ⟨hdata₂, htx₂⟩ := purgeServers_tables (purgeDatasets env.now g) env.now
  obtain ⟨hdata₃, htx₃⟩ := checkIfSockets_tables env (purgeData env g).1 lost
  obtain ⟨hdata₄, htx₄, hcloses⟩ := executeUpdateCommand_tables (checkIfSockets env (purgeData env g).1 lost)
  have hout : closes (serverRound env g lost).2 = closes (purgeTransactions env
      (purgeServers env.now (purgeDatasets env.now g))).2 := by
    have hsent := closes_roundSends env g
    unfold roundSends at hsent
    simp only [serverRound, closes_append, hsent, hcloses, List.nil_append, List.append_nil]
    rfl
  rw [hout, closes_purgeTransactions, htx₂, htx₁]
  refine .purged ?_ ?_
  · exact hdata₄.trans (hdata₃.trans (hdata₂.trans hdata₁))
  · refine htx₄.trans (htx₃.trans ?_)
    rw [purgeData, purgeTransactions, htx₂, htx₁]

theorem step_change (e : Event) : Change env g e (step env g e).1 (closes (step env g e).2) := by
  cases e with
  | recv name source buf =>
    simp only [step]
    cases g.interfaces.find? fun i => i.name = name with
    | none => exact .quiet rfl rfl
    | some interface => exact recvAlfredPacket_change env g name interface source buf
  | client sock buf => exact unixSockRead_change env g sock buf
  | reopen device bound => exact .quiet rfl rfl
  | error lost => exact .quiet rfl rfl
  | round lost => exact serverRound_change env g lost

end Cases

section Network

/-- The handlers of data do not touch the interfaces and the servers behind them. -/
structure SameNetwork (g g' : Globals) : Prop where
  opmode : g'.opmode = g.opmode
  interfaces : g'.interfaces = g.interfaces
  bestServer : g'.bestServer = g.bestServer

variable (env : Env) {g g' g'' : Globals}

theorem SameNetwork.refl (g : Globals) : SameNetwork g g := ⟨rfl, rfl, rfl⟩

theorem SameNetwork.trans (h : SameNetwork g g') (h' : SameNetwork g' g'') : SameNetwork g g'' :=
  ⟨h'.opmode.trans h.opmode, h'.interfaces.trans h.interfaces, h'.bestServer.trans h.bestServer⟩

theorem sameNetwork_foldl {α : Type} {f : Globals → α → Globals} (h : ∀ g a, SameNetwork g (f g a))
    (as : List α) (g : Globals) : SameNetwork g (as.foldl f g) := by
  induction as generalizing g with
  | nil => exact .refl g
  | cons a as ih => exact (h g a).trans (ih (f g a))

theorem sameNetwork_changedDataType (g : Globals) (t : UInt8) :
    SameNetwork g (changedDataType g t) := by
  unfold changedDataType
  split_ifs <;> exact ⟨rfl, rfl, rfl⟩

theorem sameNetwork_finishBlock (now : Timespec) (mac : EtherAddr) (g : Globals) (b : Block) :
    SameNetwork g (finishBlock now mac g b) := by
  unfold finishBlock
  cases mergeBlock now mac g.dataHash b with
  | mk hash changed =>
    cases changed with
    | false => exact ⟨rfl, rfl, rfl⟩
    | true =>
      obtain ⟨hmode, hinterfaces, hbest⟩ := sameNetwork_changedDataType { g with dataHash := hash } b.type
      exact ⟨hmode, hinterfaces, hbest⟩

theorem sameNetwork_finishTransaction (mac : EtherAddr) (head : TransactionHead) (seqno : UInt16) :
    SameNetwork g (finishTransaction env g mac head seqno).1 := by
  have hmerge : ∀ ps : List TransactionPacket,
      SameNetwork g (ps.foldl (finishAlfredPushData env.now mac) g) := fun ps =>
    sameNetwork_foldl (fun g p => sameNetwork_foldl (sameNetwork_finishBlock env.now mac) _ g) ps g
  by_cases hall : head.numPacket = seqno.toNat
  · obtain ⟨hmode, hinterfaces, hbest⟩ := hmerge head.packetList
    simp only [finishTransaction, hall, ne_eq, not_true_eq_false, if_false, if_true]
    exact ⟨hmode, hinterfaces, hbest⟩
  · simp only [finishTransaction, hall, ne_eq, not_false_eq_true, if_true]
    exact ⟨rfl, rfl, rfl⟩

/-- Only the tables of data and transactions are others. -/
def OnlyTables (g g' : Globals) : Prop :=
  ∃ hash tx, g' = { g with dataHash := hash, transactionHash := tx }

theorem OnlyTables.refl (g : Globals) : OnlyTables g g := ⟨g.dataHash, g.transactionHash, rfl⟩

theorem OnlyTables.sameNetwork (h : OnlyTables g g') : SameNetwork g g' := by
  obtain ⟨hash, tx, rfl⟩ := h
  exact ⟨rfl, rfl, rfl⟩

theorem processAlfredPushData_eq (source : In6Addr) (header : Tlv) (body : Bytes) :
    ∃ tx, processAlfredPushData env g source header body = { g with transactionHash := tx } := by
  unfold processAlfredPushData
  cases ipv6ToMac source with
  | none => exact ⟨_, rfl⟩
  | some mac =>
    by_cases hshort : header.length.toNat < 4
    · simp only [if_pos hshort]
      exact ⟨_, rfl⟩
    simp only [if_neg hshort]
    cases takeTx (body.take header.length.toNat) with
    | none => exact ⟨_, rfl⟩
    | some tx =>
      obtain ⟨⟨id, seqno⟩, data⟩ := tx
      simp only
      cases hfind : g.transactionHash.find (mac, id) with
      | some head => exact ⟨_, rfl⟩
      | none =>
        by_cases hmode : g.opmode = .master
        · simp only [if_neg (not_not_intro hmode), transactionAdd_eq_some g env.now hfind]
          exact ⟨_, rfl⟩
        · simp only [if_pos hmode]
          exact ⟨_, rfl⟩

theorem onlyTables_push (source : In6Addr) (header : Tlv) (body : Bytes) :
    OnlyTables g (processAlfredPushData env g source header body) := by
  obtain ⟨tx, h⟩ := processAlfredPushData_eq env (g := g) source header body
  exact ⟨g.dataHash, tx, h⟩

theorem onlyTables_unixSockAddData (header : Tlv) (body : Bytes) :
    OnlyTables g (unixSockAddData env g header body) := by
  unfold unixSockAddData
  cases firstInterface g with
  | none => exact .refl g
  | some interface =>
    simp only
    split_ifs
    · exact .refl g
    cases takeBlock ((body.take header.length.toNat).drop 4) with
    | none => exact .refl g
    | some taken =>
      simp only
      cases clientSource g interface taken.1.source <;> exact ⟨_, _, rfl⟩

theorem onlyTables_unixSockReqData (sock : ℕ) (header : Tlv) (body : Bytes) :
    OnlyTables g (unixSockReqData env g sock header body).1 := by
  unfold unixSockReqData
  by_cases hlength : header.length = 3
  swap
  · simp only [ne_eq, hlength, not_false_eq_true, if_true]
    exact .refl g
  simp only [ne_eq, hlength, not_true_eq_false, if_false]
  split
  swap
  · exact .refl g
  rename_i requestedType hi lo rest
  cases g.bestServer with
  | none => exact .refl g
  | some best =>
    cases firstInterface g with
    | none => exact .refl g
    | some interface =>
      by_cases hmode : g.opmode = .master
      · simp only [hmode, if_true]
        exact .refl g
      simp only [hmode, if_false]
      cases deref g best with
      | none => exact .refl g
      | some server =>
        cases hfind : heads g (server.hwaddr, ntohs hi lo) with
        | some head =>
          simp only [transactionAdd_eq_none g hfind]
          exact .refl g
        | none =>
          simp only [transactionAdd_eq_some g env.now hfind]
          exact ⟨_, _, rfl⟩

theorem sameNetwork_txend (source : In6Addr) (header : Tlv) (body : Bytes) :
    SameNetwork g (processAlfredStatusTxend env g source header body).1 := by
  unfold processAlfredStatusTxend
  split_ifs
  · exact .refl g
  · exact .refl g
  split
  · split
    · exact .refl g
    split_ifs
    · exact .refl g
    · exact sameNetwork_finishTransaction env _ _ _
  · exact .refl g

/-- Of all packets only an announcement is about the network. -/
theorem recvAlfredPacket_network (g : Globals) (i : Interface) (source : In6Addr) (buf : Bytes) :
    SameNetwork g (recvAlfredPacket env g i source buf).1 ∨ ∃ header,
      (recvAlfredPacket env g i source buf).1 =
        processAlfredAnnounceMaster env g i.name source header := by
  refine recvAlfredPacket_cases (motive := fun r => SameNetwork g r.1 ∨ ∃ header,
    r.1 = processAlfredAnnounceMaster env g i.name source header) env g i source buf (.inl (.refl g))
    (fun header body _ _ _ => ?_) (fun header => ?_) (fun header body => ?_) fun header body _ _ => ?_
  · exact .inl (onlyTables_push env _ _ _).sameNetwork
  · exact .inr ⟨header, rfl⟩
  · exact .inl (.refl g)
  · exact .inl (sameNetwork_txend env _ _ _)

/-- Hearing of a server changes nothing but the servers. -/
theorem processAlfredAnnounceMaster_cases (g : Globals) (interface : Bytes) (source : In6Addr) (header : Tlv) :
    processAlfredAnnounceMaster env g interface source header = g ∨ ∃ mac,
      ipv6ToMac source = some mac ∧
      processAlfredAnnounceMaster env g interface source header =
        if g.opmode = .slave then
          setBestServer (onInterface g interface (hearServer env g source mac))
        else onInterface g interface (hearServer env g source mac) := by
  unfold processAlfredAnnounceMaster
  cases hmac : ipv6ToMac source with
  | none => exact .inl rfl
  | some mac =>
    by_cases hversion : header.version = alfredVersion
    swap
    · exact .inl (by simp only [ne_eq, hversion, not_false_eq_true, if_true])
    by_cases hlength : header.length = 0
    swap
    · exact .inl (by simp only [hversion, ne_eq, hlength, not_true_eq_false, not_false_eq_true, if_true,
        if_false])
    refine .inr ⟨mac, rfl, ?_⟩
    simp only [hversion, hlength, ne_eq, not_true_eq_false, if_false]
    rfl

end Network

end NexFi.AlfredServer
