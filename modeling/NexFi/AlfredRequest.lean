import NexFi.AlfredClient
import NexFi.AlfredNetwork

/-!
# A client of a slave asks for data

The slave asks its best server, collects what comes back and tells its client once
all of it is there.
-/

namespace NexFi.AlfredRequest
open AlfredServer AlfredPacket AlfredData AlfredClient ChainTable

/-- What a node sends to others. -/
def sends (out : List Output) : List Bytes :=
  out.filterMap fun
    | .sendto _ _ buf => some buf
    | _ => none

section Asking
variable (env : Env) {g : Globals} {server : Server} {i : Interface} (sock : ℕ) (requestedType : UInt8)
    {id : UInt16}

/-- The transaction that a slave waits for. -/
def askedHead (env : Env) (mac : EtherAddr) (id : UInt16) (sock : ℕ) (requestedType : UInt8) :
    TransactionHead :=
  { freshHead mac id env.now with clientSocket := some sock, requestedType := requestedType }

theorem step_asks (hmode : g.opmode = .slave) (hserver : g.bestServer.bind (deref g) = some server)
    (hinterface : firstInterface g = some i) (hfresh : heads g (server.hwaddr, id) = none) :
    step env g (.client sock (requestPacket requestedType id)) =
      (setHead (setHead g (freshHead server.hwaddr id env.now))
        (askedHead env server.hwaddr id sock requestedType),
        sendAlfredPacket i server.address (requestPacket requestedType id)) := by
  have hid : ntohs (UInt8.ofNat (id.toNat / 256)) id.toUInt8 = id := ntohs_htons id
  obtain ⟨best, hbest, hderef⟩ := Option.bind_eq_some_iff.mp hserver
  rw [step_requestPacket]
  simp only [htons]
  unfold unixSockReqData
  simp only [hid, ne_eq, not_true_eq_false, if_false, hbest, hinterface, hmode, reduceCtorEq, hderef,
    transactionAdd_eq_some g env.now hfresh]
  rfl

theorem sends_asks (hmode : g.opmode = .slave) (hserver : g.bestServer.bind (deref g) = some server)
    (hinterface : firstInterface g = some i) (hfresh : heads g (server.hwaddr, id) = none) :
    sends (step env g (.client sock (requestPacket requestedType id))).2 =
      [requestPacket requestedType id] := by
  have hopen : i.netsock = true := List.find?_some hinterface
  rw [step_asks env sock requestedType hmode hserver hinterface hfresh, sendAlfredPacket, if_pos hopen]
  rfl

end Asking

section Answering
variable (env : Env) {m : Globals} {name : Bytes} {own : EtherAddr} (requestedType : UInt8) (id : UInt16)

theorem sends_flatMap {i : Interface} (hopen : i.netsock = true) (dest : In6Addr) (bufs : List Bytes) :
    sends (bufs.flatMap (sendAlfredPacket i dest)) = bufs := by
  induction bufs with
  | nil => rfl
  | cons buf bufs ih =>
    rw [List.flatMap_cons, sendAlfredPacket, if_pos hopen, sends, List.filterMap_append]
    exact congrArg (List.cons buf) ih

/-- The server sends all that it holds of the type. -/
theorem sends_answer (hlistens : Listens m name own) :
    sends (step env m (.recv name (macToIpv6 own) (requestPacket requestedType id))).2 =
      pushData id .sourceSynced (some requestedType) m.dataHash := by
  obtain ⟨i, hi, hopen, hown⟩ := hlistens.interface
  have htlv := takeTlv_packet alfredRequest (requestedType :: htons id)
  have hid : ntohs (UInt8.ofNat (id.toNat / 256)) id.toUInt8 = id := ntohs_htons id
  have hstep : (step env m (.recv name (macToIpv6 own) (requestPacket requestedType id))).2 =
      (pushData id .sourceSynced (some requestedType) m.dataHash).flatMap
        (sendAlfredPacket i (macToIpv6 own)) := by
    simp only [htons] at htlv
    simp only [step, hi, recvAlfredPacket, hopen, isIpv6Eui64_macToIpv6, hown, requestPacket, htons, htlv,
      Bool.not_true, Bool.false_eq_true, if_false, ne_eq, not_true_eq_false, if_true,
      show ¬ alfredRequest = alfredPushData by decide,
      show ¬ alfredRequest = alfredAnnounceMaster by decide, processAlfredRequest, hid]
    rfl
  rw [hstep, sends_flatMap hopen]

end Answering

section Finishing
variable (env : Env) {g : Globals} {mac : EtherAddr} {head : TransactionHead} {seqno : UInt16}

theorem finishTransaction_client {sock : ℕ} (hcount : head.numPacket = seqno.toNat)
    (hsock : head.clientSocket = some sock) : (finishTransaction env g mac head seqno).2 =
      unixSockReqDataReply env (finishTransaction env g mac head seqno).1 sock head.id
        head.requestedType := by
  simp only [finishTransaction, hcount, ne_eq, not_true_eq_false, if_false, if_true, finishClient, hsock,
    Option.elim_some, unixSockReqDataFinish]

theorem goesOn_run {name : Bytes} {id : UInt16} {chunks : List (List Block)} (hfilled : Filled chunks)
    {xs : List (Env × Event)} (hrecv : ∀ x ∈ xs, IsRecv x.2)
    (hgenuine : ∀ x ∈ xs, Genuine mac id (packets id chunks) x.2) (hg : Receiving name mac id chunks g)
    (hhead : heads g (mac, id) = some head) :
    ∃ head', heads (run g xs) (mac, id) = some head' ∧ GoesOn head head' := by
  induction xs using List.reverseRecOn with
  | nil => exact ⟨head, hhead, .refl head⟩
  | append_singleton xs x ih =>
    have hbefore := fun y hy => hrecv y (List.mem_append_left [x] hy)
    have hbefore' := fun y hy => hgenuine y (List.mem_append_left [x] hy)
    obtain ⟨head', hhead', hgoes⟩ := ih hbefore hbefore'
    have hxs := receiving_run hfilled hbefore hbefore' hg
    have hlast := hrecv x (by simp)
    have hlast' := hgenuine x (by simp)
    obtain ⟨env, e⟩ := x
    cases e with
    | recv name' source buf =>
      obtain ⟨head'', hhead'', hgoes'⟩ := goesOn_step env hxs.sound hhead' hlast'
      exact ⟨head'', by rw [run_append]; exact hhead'', hgoes.trans hgoes'⟩
    | _ => cases hlast

end Finishing

section Answered
variable {g : Globals} {server : Server} {i : Interface} {name : Bytes} {id : UInt16}

theorem bestServer_address (hg : Reached g) (hserver : g.bestServer.bind (deref g) = some server) :
    server.address = macToIpv6 server.hwaddr ∧ isValidEtherAddr server.hwaddr = true := by
  obtain ⟨best, -, hderef⟩ := Option.bind_eq_some_iff.mp hserver
  have hmem := (deref_eq_some hg.networkOk.names).mp hderef
  exact ipv6ToMac_eq_some.mp (hg.addressesOk _ hmem)

theorem receiving_asks (hg : Reached g) (env : Env) (sock : ℕ) (requestedType : UInt8)
    (hmode : g.opmode = .slave) (hserver : g.bestServer.bind (deref g) = some server)
    (hinterface : firstInterface g = some i) (hfresh : heads g (server.hwaddr, id) = none)
    (hlistens : Listens g name server.hwaddr) (chunks : List (List Block)) :
    heads (stepTo g (env, .client sock (requestPacket requestedType id))) (server.hwaddr, id) =
        some (askedHead env server.hwaddr id sock requestedType) ∧
      Receiving name server.hwaddr id chunks
        (stepTo g (env, .client sock (requestPacket requestedType id))) := by
  have hsound := soundHeads_step g (env, .client sock (requestPacket requestedType id)) hg.soundHeads
  have hstep : stepTo g (env, .client sock (requestPacket requestedType id)) =
      setHead (setHead g (freshHead server.hwaddr id env.now))
        (askedHead env server.hwaddr id sock requestedType) :=
    congrArg Prod.fst (step_asks env sock requestedType hmode hserver hinterface hfresh)
  have hhead : heads (stepTo g (env, .client sock (requestPacket requestedType id)))
      (server.hwaddr, id) = some (askedHead env server.hwaddr id sock requestedType) := by
    rw [hstep, heads_setHead]
    exact Function.update_self ..
  refine ⟨hhead, hsound, fun head h => ?_, .inr (by rw [hhead]; rfl), ?_⟩
  · rw [hhead, Option.some_inj] at h
    rw [← h]
    exact List.nil_subset _
  · rw [hstep]
    exact hlistens

theorem mem_pushBlocks {hash : DataHash} {requestedType : UInt8} {d : Dataset} (hd : d ∈ hash.entries)
    (htype : d.data.type = requestedType) (hfits : Fits d.data) :
    d.data ∈ (pushBlocks .sourceSynced (some requestedType) hash).filter Fits := by
  refine List.mem_filter.mpr ⟨List.mem_map_of_mem (List.mem_filter.mpr ⟨hd, ?_⟩), decide_eq_true hfits⟩
  cases hsource : d.dataSource <;> simp [selected, hsource, DataSource.level, htype]

theorem mem_readAll {k : DataKey} {d : Dataset} {requestedType : UInt8} {env : Env}
    (hfind : g.dataHash.find k = some d) (htype : d.data.type = requestedType) (hfits : Fits d.data)
    (hwrites : g.dataHash.entries.length ≤ env.writes) (verbose : Bool) (sock : ℕ) (id : UInt16) :
    (d.data.source, d.data.data) ∈ readAll (alfredClientRequestData verbose
      (written sock (unixSockReqDataReply env g sock id requestedType))).1 := by
  have hkey : dataHashing.key d = k := Table.find_key _ hfind
  have hrequested : d ∈ requested g requestedType := by
    refine List.mem_filter.mpr ⟨?_, ?_⟩
    · rw [Table.mem_entries, hkey, hfind]
    · simp [htype, hfits]
  have hlength : (requested g requestedType).length ≤ env.writes :=
    (List.length_filter_le _ _).trans hwrites
  rw [alfredClientRequestData_reply verbose hlength, readAll_lines, List.map_map]
  exact List.mem_map.mpr ⟨d, hrequested, rfl⟩

/-- A client of a slave is told of all that the best server holds of the type, once all packets of the
answer have arrived, in whatever order and among whatever else arrives. -/
theorem request_answered (hg : Reached g) (hmode : g.opmode = .slave)
    (hserver : g.bestServer.bind (deref g) = some server) (hinterface : firstInterface g = some i)
    (hfresh : heads g (server.hwaddr, id) = none) (hlistens : Listens g name server.hwaddr)
    {m : Globals} {nameM : Bytes} {own : EtherAddr} (hlistensM : Listens m nameM own)
    (hroom : m.dataHash.entries.length < 2 ^ 16) {env₀ envM : Env} {sock : ℕ} {requestedType : UInt8}
    {ps : List Bytes} {txend : Bytes}
    (hanswer : sends (step envM m (.recv nameM (macToIpv6 own) (requestPacket requestedType id))).2 =
      ps ++ [txend])
    {xs : List (Env × Event)} (hrecv : ∀ x ∈ xs, IsRecv x.2)
    (hgenuine : ∀ x ∈ xs, Genuine server.hwaddr id ps x.2)
    (hall : ∀ buf ∈ ps, ∃ env, (env, Event.recv name server.address buf) ∈ xs) {g' : Globals}
    (hg' : g' = run g ((env₀, .client sock (requestPacket requestedType id)) :: xs)) {env : Env}
    {r : Globals × List Output} (hr : r = step env g' (.recv name server.address txend))
    (hwrites : r.1.dataHash.entries.length ≤ env.writes) (verbose : Bool) :
    sends (step env₀ g (.client sock (requestPacket requestedType id))).2 =
        [requestPacket requestedType id] ∧
      closes r.2 = [sock] ∧
      ∀ d ∈ m.dataHash.entries, d.data.type = requestedType → Fits d.data →
        (∀ d', g'.dataHash.find (blockKey d.data) = some d' → d'.dataSource ≠ .sourceLocal) →
        (d.data.source, d.data.data) ∈ readAll (alfredClientRequestData verbose (written sock r.2)).1 := by
  refine ⟨sends_asks env₀ sock requestedType hmode hserver hinterface hfresh, ?_⟩
  obtain ⟨haddress, hvalid⟩ := bestServer_address hg hserver
  rw [haddress] at hall hr
  rw [sends_answer envM requestedType id hlistensM] at hanswer
  obtain ⟨chunks, hflatten, hfilled, hpush⟩ := pushData_spec id .sourceSynced (some requestedType) m.dataHash
  obtain ⟨rfl, rfl⟩ : ps = packets id chunks ∧
      txend = statusPacket alfredStatusTxend id (UInt16.ofNat chunks.length) := by
    rw [hanswer, if_pos (.inr (Option.some_ne_none _))] at hpush
    obtain ⟨hps, htxend⟩ := List.append_inj' hpush rfl
    exact ⟨hps, List.singleton_inj.mp htxend⟩
  have hcount := length_chunks hroom hflatten hfilled
  have hnodup : (chunks.flatten.map blockKey).Nodup := by
    rw [hflatten]
    exact (List.filter_sublist.map blockKey).nodup (nodup_pushBlocks _ _ _)
  obtain ⟨hasked, hreceiving⟩ := receiving_asks hg env₀ sock requestedType hmode hserver hinterface hfresh
    hlistens chunks
  have hstart : g' = run (stepTo g (env₀, .client sock (requestPacket requestedType id))) xs := hg'
  have hrun := receiving_run hfilled hrecv hgenuine hreceiving
  have harrived := arrived_all hfilled hvalid hrecv hgenuine hreceiving hall
  obtain ⟨head, hhead, hgoes⟩ := goesOn_run hfilled hrecv hgenuine hreceiving hasked
  rw [← hstart] at hrun harrived hhead
  obtain ⟨hnum, hstep⟩ := txend_finish env hcount hvalid hrun hhead harrived
  rw [hstep] at hr
  have hreply : r.2 = unixSockReqDataReply env r.1 sock id requestedType := by
    rw [hr, finishTransaction_client env hnum hgoes.clientSocket, (head_key g' hhead).2,
      hgoes.requestedType]
    rfl
  have hmerged : ∀ k, r.1.dataHash.find k =
      (mergeBlocks env.now server.hwaddr g'.dataHash chunks.flatten).find k := by
    rw [hr]
    exact finishTransaction_complete env hcount hnodup hrun hhead hnum
  refine ⟨by rw [hreply, closes_unixSockReqDataReply], fun d hd htype hfits hlocal => ?_⟩
  have hmem : d.data ∈ chunks.flatten := by
    rw [hflatten]
    exact mem_pushBlocks hd htype hfits
  have hfind : r.1.dataHash.find (blockKey d.data) =
      some ⟨d.data, env.now, sourceFrom server.hwaddr d.data⟩ := by
    rw [hmerged, find_mergeBlocks_of_mem hnodup hmem hlocal]
  rw [hreply]
  exact mem_readAll hfind htype hfits hwrites verbose sock id

end Answered

section Sample

/-- A slave that has heard of the server, and the server with data of its own. -/
def sampleSlave : Globals := run (globalsInit ⟨.slave, [97], [98], none⟩ ⟨0, 0⟩) sampleEvents

def sampleServer : Globals :=
  run (globalsInit ⟨.master, [97], [98], none⟩ ⟨0, 0⟩)
    [(sampleEnv, .reopen (fun _ => some (sampleMac, 3)) fun _ => true), (sampleEnv, .client 4 samplePush)]

theorem sends_sampleServer :
    sends (step sampleEnv sampleServer (.recv [97] (macToIpv6 ⟨2, 0, 0, 0, 0, 9⟩)
      (requestPacket 66 5))).2 = [samplePush] ++ [sampleTxend] := by decide

def sampleAnswered : Globals × List Output :=
  step sampleReader (run sampleSlave [(sampleEnv, .client 8 (requestPacket 66 5)),
    (sampleEnv, .recv [97] (macToIpv6 sampleMac) samplePush)])
    (.recv [97] (macToIpv6 sampleMac) sampleTxend)

theorem request_answered_sample :
    sends (step sampleEnv sampleSlave (.client 8 (requestPacket 66 5))).2 = [requestPacket 66 5] ∧
      closes sampleAnswered.2 = [8] ∧
      ∀ d ∈ sampleServer.dataHash.entries, d.data.type = 66 → Fits d.data →
        (∀ d', (run sampleSlave [(sampleEnv, .client 8 (requestPacket 66 5)),
          (sampleEnv, .recv [97] (macToIpv6 sampleMac) samplePush)]).dataHash.find (blockKey d.data) =
            some d' → d'.dataSource ≠ .sourceLocal) →
        (d.data.source, d.data.data) ∈
          readAll (alfredClientRequestData true (written 8 sampleAnswered.2)).1 := by
  have hserver : sampleSlave.bestServer.bind (deref sampleSlave) =
      some ⟨sampleMac, macToIpv6 sampleMac, ⟨0, 0⟩, 0⟩ := rfl
  have hlistens : Listens sampleSlave [97] sampleMac := ⟨⟨_, rfl, rfl⟩, by decide⟩
  have hlistensM : Listens sampleServer [97] ⟨2, 0, 0, 0, 0, 9⟩ := ⟨⟨_, rfl, rfl⟩, by decide⟩
  have hrecv : ∀ x ∈ [(sampleEnv, Event.recv [97] (macToIpv6 sampleMac) samplePush)], IsRecv x.2 := by
    simp [IsRecv]
  have hgenuine : ∀ x ∈ [(sampleEnv, Event.recv [97] (macToIpv6 sampleMac) samplePush)],
      Genuine sampleMac 5 [samplePush] x.2 := by
    simp [Genuine]
  exact request_answered ⟨_, _, sampleEvents, rfl⟩ rfl hserver rfl rfl hlistens hlistensM (by decide)
    sends_sampleServer hrecv hgenuine (by simp) rfl rfl (by decide) true

end Sample

end NexFi.AlfredRequest
