import Mathlib.Data.List.Perm.Subperm
import NexFi.AlfredSteps

/-!
# A transaction is merged as a whole or not at all

Packets of a transaction may be lost, doubled and reordered, and anything else may
happen to the node between them. What is collected is always a part of what the
peer pushed, each packet at most once, so a count that is right means that nothing
is missing.
-/

namespace NexFi.AlfredServer
open AlfredPacket AlfredData ChainTable

section Runs

def stepTo (g : Globals) (x : Env × Event) : Globals := (step x.1 g x.2).1

def run (g : Globals) (xs : List (Env × Event)) : Globals := xs.foldl stepTo g

theorem run_append (g : Globals) (xs ys : List (Env × Event)) : run g (xs ++ ys) = run (run g xs) ys :=
  List.foldl_append

/-- A state that a node can be in. -/
def Reached (g : Globals) : Prop := ∃ options start xs, g = run (globalsInit options start) xs

/-- What every step keeps holds after every run. -/
theorem run_induction {P : Globals → Prop} {Q : Env × Event → Prop}
    (hstep : ∀ g x, P g → Q x → P (stepTo g x)) {xs : List (Env × Event)} (hxs : ∀ x ∈ xs, Q x)
    {g : Globals} (h : P g) : P (run g xs) := by
  induction xs generalizing g with
  | nil => exact h
  | cons x xs ih =>
    refine ih (fun y hy => hxs y (List.mem_cons_of_mem x hy)) ?_
    exact hstep g x h (hxs x List.mem_cons_self)

end Runs

section Heads

/-- As many packets as it says, no number twice, and not over. -/
structure SoundHead (head : TransactionHead) : Prop where
  finished : head.finished = 0
  count : head.numPacket = head.packetList.length
  nodup : (head.packetList.map TransactionPacket.seqno).Nodup

def SoundHeads (g : Globals) : Prop := ∀ k head, heads g k = some head → SoundHead head

theorem soundHead_fresh (mac : EtherAddr) (id : UInt16) (now : Timespec) :
    SoundHead (freshHead mac id now) := ⟨rfl, rfl, List.nodup_nil⟩

/-- A packet is added behind the others or there is one of its number. -/
theorem keepPacket_packetList {head : TransactionHead} (h : head.finished = 0) (now : Timespec)
    (seqno : UInt16) (data : Bytes) :
    (seqno ∈ head.packetList.map TransactionPacket.seqno ∧
        keepPacket now head seqno data = { head with lastRxTime := now }) ∨
      (seqno ∉ head.packetList.map TransactionPacket.seqno ∧
        keepPacket now head seqno data = { head with
          lastRxTime := now
          packetList := head.packetList ++ [⟨seqno, data⟩]
          numPacket := head.numPacket + 1 }) := by
  by_cases hthere : seqno ∈ head.packetList.map TransactionPacket.seqno
  · refine .inl ⟨hthere, ?_⟩
    simp only [keepPacket, h, ne_eq, not_true_eq_false, if_false]
    rw [if_pos]
    simpa using hthere
  · refine .inr ⟨hthere, ?_⟩
    simp only [keepPacket, h, ne_eq, not_true_eq_false, if_false]
    rw [if_neg]
    simpa using hthere

theorem SoundHead.keepPacket {head : TransactionHead} (h : SoundHead head) (now : Timespec)
    (seqno : UInt16) (data : Bytes) : SoundHead (keepPacket now head seqno data) := by
  rcases keepPacket_packetList h.finished now seqno data with ⟨-, heq⟩ | ⟨hnew, heq⟩
  · rw [heq]
    exact ⟨h.finished, h.count, h.nodup⟩
  · rw [heq]
    refine ⟨h.finished, ?_, ?_⟩
    · simp [h.count]
    · simp only [List.map_append, List.map_cons, List.map_nil]
      exact h.nodup.append (List.nodup_singleton _) (List.disjoint_singleton.mpr hnew)

theorem HeadFor.sound {g : Globals} {now : Timespec} {mac : EtherAddr} {id : UInt16}
    {head : TransactionHead} (hg : SoundHeads g) (h : HeadFor g now mac id head) : SoundHead head := by
  rcases h with h | ⟨-, -, rfl⟩
  · exact hg _ _ h
  · exact soundHead_fresh mac id now

/-- What a step makes of the running transactions. -/
theorem Change.heads_cases {env : Env} {g g' : Globals} {e : Event} {closed : List ℕ}
    (h : Change env g e g' closed) {k : TxKey} {head' : TransactionHead}
    (hfind : heads g' k = some head') :
    heads g k = some head' ∨
      (∃ name source buf seqno data head, e = .recv name source buf ∧
        ipv6ToMac source = some k.1 ∧ ReadsPush buf k.2 seqno data ∧ HeadFor g env.now k.1 k.2 head ∧
        head' = keepPacket env.now head seqno data) ∨
      (∃ sock requestedType, head' = { freshHead k.1 k.2 env.now with
        requestedType := requestedType, clientSocket := some sock }) := by
  cases h with
  | quiet hdata htx => exact .inl (by rwa [heads, ← htx])
  | leaked hlost => exact .inl hfind
  | @pushed name source buf data mac id seqno head _ hmac hread hhead hdata htx =>
    rw [htx, Function.update_apply] at hfind
    split_ifs at hfind with hk
    · subst hk
      exact .inr (.inl ⟨name, source, buf, seqno, data, head, rfl, hmac, hread, hhead,
        (Option.some_inj.mp hfind).symm⟩)
    · exact .inl hfind
  | ended hmac hread hhead hfinished hdata htx =>
    rw [htx, Function.update_apply] at hfind
    split_ifs at hfind
    exact .inl hfind
  | handed hread hinterface hsource hdata htx => exact .inl (by rwa [heads, ← htx])
  | @asked sock buf requestedType server id _ hread hmode hserver hnone hdata htx =>
    rw [htx, Function.update_apply] at hfind
    split_ifs at hfind with hk
    · subst hk
      exact .inr (.inr ⟨sock, requestedType, (Option.some_inj.mp hfind).symm⟩)
    · exact .inl hfind
  | purged hdata htx =>
    rw [heads, htx, Table.find_filter, Option.filter_eq_some_iff] at hfind
    exact .inl hfind.1

theorem soundHeads_step (g : Globals) (x : Env × Event) (hg : SoundHeads g) :
    SoundHeads (stepTo g x) := by
  intro k head' hfind
  rcases (step_change x.1 g x.2).heads_cases hfind with h | ⟨_, _, _, seqno, data, head, -, -, -, h, rfl⟩ |
    ⟨sock, requestedType, rfl⟩
  · exact hg k head' h
  · exact (h.sound hg).keepPacket x.1.now seqno data
  · exact ⟨rfl, rfl, List.nodup_nil⟩

theorem soundHeads_globalsInit (options : Options) (now : Timespec) :
    SoundHeads (globalsInit options now) := by
  intro k head h
  cases h

theorem soundHeads_run {g : Globals} (hg : SoundHeads g) (xs : List (Env × Event)) :
    SoundHeads (run g xs) :=
  run_induction (Q := fun _ => True) (fun g x h _ => soundHeads_step g x h) (fun _ _ => trivial) hg

theorem Reached.soundHeads {g : Globals} (h : Reached g) : SoundHeads g := by
  obtain ⟨options, start, xs, rfl⟩ := h
  exact soundHeads_run (soundHeads_globalsInit options start) xs

end Heads

section Pushed

/-- A packet of a transaction, whatever it says. -/
def Belongs (buf : Bytes) (id : UInt16) : Prop :=
  (∃ seqno data, ReadsPush buf id seqno data) ∨ ∃ seqno, ReadsTxend buf id seqno

/-- What the peer `mac` sends with this id is taken from these packets. -/
def Genuine (mac : EtherAddr) (id : UInt16) (bufs : List Bytes) : Event → Prop
  | .recv _ source buf => ipv6ToMac source = some mac → Belongs buf id → buf ∈ bufs
  | _ => True

/-- What is kept of the packets of these fillings. -/
def transactionPackets (chunks : List (List Block)) : List TransactionPacket :=
  chunks.mapIdx fun i c => ⟨UInt16.ofNat i, c.flatMap Block.bytes⟩

theorem takeTlv_unique {buf : Bytes} {header header' : Tlv} {body body' : Bytes}
    (h : takeTlv buf = some (header, body)) (h' : takeTlv buf = some (header', body')) :
    header = header' ∧ body = body' := by
  rw [h, Option.some_inj, Prod.mk.injEq] at h'
  exact h'

theorem readsPush_pushPacket (id seqno : UInt16) {id' seqno' : UInt16} {data data' : Bytes}
    (hroom : data.length ≤ room) : ReadsPush (pushPacket id seqno data) id' seqno' data' ↔
      id' = id ∧ seqno' = seqno ∧ data' = data := by
  have htlv := takeTlv_packet alfredPushData (htons id ++ (htons seqno ++ data))
  have hlength : (UInt16.ofNat (htons id ++ (htons seqno ++ data)).length).toNat =
      (htons id ++ (htons seqno ++ data)).length := by
    rw [UInt16.toNat_ofNat', Nat.mod_eq_of_lt]
    simp only [List.length_append, length_htons]
    unfold room maxPayload at hroom
    omega
  constructor
  · rintro ⟨header, body, hbuf, -, -, htx⟩
    obtain ⟨rfl, rfl⟩ := takeTlv_unique htlv hbuf
    rw [hlength, List.take_length, takeTx_htons, Option.some_inj, Prod.mk.injEq, Prod.mk.injEq] at htx
    exact ⟨htx.1.1.symm, htx.1.2.symm, htx.2.symm⟩
  · rintro ⟨rfl, rfl, rfl⟩
    refine ⟨_, _, htlv, rfl, hlength.le, ?_⟩
    rw [hlength, List.take_length, takeTx_htons]

theorem not_readsTxend_pushPacket {id seqno id' seqno' : UInt16} {data : Bytes} :
    ¬ ReadsTxend (pushPacket id seqno data) id' seqno' := by
  rintro ⟨header, body, rest, hbuf, htype, -, -⟩
  obtain ⟨rfl, rfl⟩ := takeTlv_unique (takeTlv_packet alfredPushData _) hbuf
  exact absurd htype (show ¬ alfredPushData = alfredStatusTxend by decide)

theorem readsTxend_statusPacket {id seqno id' seqno' : UInt16} :
    ReadsTxend (statusPacket alfredStatusTxend id seqno) id' seqno' ↔ id' = id ∧ seqno' = seqno := by
  have htlv := takeTlv_packet alfredStatusTxend (htons id ++ htons seqno)
  have htx : takeTx (htons id ++ htons seqno) = some ((id, seqno), []) := by
    simpa using takeTx_htons id seqno []
  constructor
  · rintro ⟨header, body, rest, hbuf, -, -, hread⟩
    obtain ⟨rfl, rfl⟩ := takeTlv_unique htlv hbuf
    rw [htx, Option.some_inj, Prod.mk.injEq, Prod.mk.injEq] at hread
    exact ⟨hread.1.1.symm, hread.1.2.symm⟩
  · rintro ⟨rfl, rfl⟩
    exact ⟨_, _, [], htlv, rfl, rfl, htx⟩

theorem not_readsPush_statusPacket {id seqno id' seqno' : UInt16} {data : Bytes} :
    ¬ ReadsPush (statusPacket alfredStatusTxend id seqno) id' seqno' data := by
  rintro ⟨header, body, hbuf, htype, -, -⟩
  obtain ⟨rfl, rfl⟩ := takeTlv_unique (takeTlv_packet alfredStatusTxend _) hbuf
  exact absurd htype (show ¬ alfredStatusTxend = alfredPushData by decide)

variable {chunks : List (List Block)} {id : UInt16}

theorem length_chunk (hfilled : Filled chunks) {c : List Block} (hc : c ∈ chunks) :
    (c.flatMap Block.bytes).length ≤ room := by
  rw [length_flatMap_bytes]
  exact (hfilled c hc).2

theorem readsPush_packets (hfilled : Filled chunks) {buf : Bytes} (hbuf : buf ∈ packets id chunks)
    {id' seqno : UInt16} {data : Bytes} :
    ReadsPush buf id' seqno data → id' = id ∧ ⟨seqno, data⟩ ∈ transactionPackets chunks := by
  obtain ⟨i, hi, rfl⟩ := List.mem_mapIdx.mp hbuf
  rw [readsPush_pushPacket _ _ (length_chunk hfilled (List.getElem_mem hi))]
  rintro ⟨rfl, rfl, rfl⟩
  exact ⟨rfl, List.mem_mapIdx.mpr ⟨i, hi, rfl⟩⟩

theorem flatMap_transactionPackets (chunks : List (List Block)) :
    (transactionPackets chunks).flatMap (fun p => blocksOf p.data) = chunks.flatten := by
  have hmap : (transactionPackets chunks).map (fun p => blocksOf p.data) = chunks := by
    refine List.ext_getElem (by simp [transactionPackets]) fun i h _ => ?_
    simp [transactionPackets]
  rw [List.flatMap_def, hmap]

/-- With the right count nothing is missing. -/
theorem SoundHead.perm {head : TransactionHead} (h : SoundHead head)
    (hsubset : head.packetList ⊆ transactionPackets chunks) (hroom : chunks.length < 2 ^ 16)
    (hcount : head.numPacket = (UInt16.ofNat chunks.length).toNat) :
    head.packetList.Perm (transactionPackets chunks) := by
  have hlength : (transactionPackets chunks).length = head.packetList.length := by
    rw [← h.count, hcount, UInt16.toNat_ofNat', Nat.mod_eq_of_lt hroom, transactionPackets,
      List.length_mapIdx]
  exact (List.subperm_of_subset h.nodup.of_map hsubset).perm_of_length_le hlength.le

def Collected (mac : EtherAddr) (id : UInt16) (chunks : List (List Block)) (g : Globals) : Prop :=
  ∀ head, heads g (mac, id) = some head → head.packetList ⊆ transactionPackets chunks

/-- The packets of a push, and its end. -/
def pushed (id : UInt16) (chunks : List (List Block)) : List Bytes :=
  packets id chunks ++ [statusPacket alfredStatusTxend id (UInt16.ofNat chunks.length)]

theorem collected_step (mac : EtherAddr) (hfilled : Filled chunks) (g : Globals) (x : Env × Event)
    (hg : SoundHeads g ∧ Collected mac id chunks g) (hx : Genuine mac id (pushed id chunks) x.2) :
    SoundHeads (stepTo g x) ∧ Collected mac id chunks (stepTo g x) := by
  refine ⟨soundHeads_step g x hg.1, fun head' hfind => ?_⟩
  rcases (step_change x.1 g x.2).heads_cases hfind with h |
    ⟨name, source, buf, seqno, data, head, he, hmac, hread, hhead, rfl⟩ | ⟨sock, requestedType, rfl⟩
  · exact hg.2 head' h
  · have hhead' : head.packetList ⊆ transactionPackets chunks := by
      rcases hhead with h | ⟨-, -, rfl⟩
      · exact hg.2 head h
      · exact List.nil_subset _
    have hbuf : buf ∈ pushed id chunks := by
      rw [he] at hx
      exact hx hmac (.inl ⟨seqno, data, hread⟩)
    have hpacket : ⟨seqno, data⟩ ∈ transactionPackets chunks := by
      rcases List.mem_append.mp hbuf with hbuf | hbuf
      · exact (readsPush_packets hfilled hbuf hread).2
      · rw [List.mem_singleton.mp hbuf] at hread
        exact absurd hread not_readsPush_statusPacket
    rcases keepPacket_packetList (hhead.sound hg.1).finished x.1.now seqno data with
      ⟨-, heq⟩ | ⟨-, heq⟩
    · rw [heq]
      exact hhead'
    · rw [heq]
      exact List.append_subset.mpr ⟨hhead', by simpa using hpacket⟩
  · exact List.nil_subset _

/-- At the end of a transaction all of it is merged, in whatever order it arrived, or nothing is. -/
theorem txend_atomic (env : Env) (name : Bytes) {mac : EtherAddr} (hroom : chunks.length < 2 ^ 16)
    (hnodup : (chunks.flatten.map blockKey).Nodup) {g : Globals}
    (hg : SoundHeads g ∧ Collected mac id chunks g) {source : In6Addr} {buf : Bytes} (hmac : ipv6ToMac source = some mac) {seqno : UInt16} (hread : ReadsTxend buf id seqno)
    (hbuf : buf ∈ pushed id chunks) :
    (∀ k, (stepTo g (env, .recv name source buf)).dataHash.find k =
        (mergeBlocks env.now mac g.dataHash chunks.flatten).find k) ∨
      (stepTo g (env, .recv name source buf)).dataHash = g.dataHash := by
  have hchange := step_change env g (.recv name source buf)
  generalize hclosed : closes (step env g (.recv name source buf)).2 = closed at hchange
  unfold stepTo
  cases hchange with
  | quiet hdata htx => exact .inr hdata
  | pushed hmac' hread' hhead hdata htx => exact .inr hdata
  | @ended _ _ _ mac' id' seqno' head _ hmac' hread' hhead hfinished hdata htx =>
    rw [hmac, Option.some_inj] at hmac'
    subst hmac'
    have hstatus : buf = statusPacket alfredStatusTxend id (UInt16.ofNat chunks.length) := by
      rcases List.mem_append.mp hbuf with hbuf | hbuf
      · obtain ⟨i, hi, rfl⟩ := List.mem_mapIdx.mp hbuf
        exact absurd hread not_readsTxend_pushPacket
      · exact List.mem_singleton.mp hbuf
    rw [hstatus, readsTxend_statusPacket] at hread'
    obtain ⟨rfl, rfl⟩ := hread'
    by_cases hcount : head.numPacket = (UInt16.ofNat chunks.length).toNat
    · rw [if_pos hcount] at hdata
      refine .inl fun k => ?_
      have hperm := (hg.1 _ _ hhead).perm (hg.2 _ hhead) hroom hcount
      have hblocks := hperm.flatMap_right fun p => blocksOf p.data
      rw [flatMap_transactionPackets] at hblocks
      rw [hdata]
      exact (find_mergeBlocks_perm hnodup hblocks.symm k).symm
    · rw [if_neg hcount] at hdata
      exact .inr hdata

end Pushed

section Atomic

theorem nodup_pushBlocks (maxSourceLevel : DataSource) (typeFilter : Option UInt8) (hash : DataHash) :
    ((pushBlocks maxSourceLevel typeFilter hash).map blockKey).Nodup := by
  rw [pushBlocks, List.map_map]
  exact (List.filter_sublist.map dataHashing.key).nodup hash.nodup_keys

theorem length_le_length_flatten {chunks : List (List Block)} (h : Filled chunks) :
    chunks.length ≤ chunks.flatten.length := by
  induction chunks with
  | nil => exact Nat.le_refl 0
  | cons c chunks ih =>
    have hc := List.length_pos_iff.mpr (h c List.mem_cons_self).1
    have hrest := ih fun d hd => h d (List.mem_cons_of_mem c hd)
    rw [List.length_cons, List.flatten_cons, List.length_append]
    omega

theorem length_chunks {hash : DataHash} (hroom : hash.entries.length < 2 ^ 16)
    {maxSourceLevel : DataSource} {typeFilter : Option UInt8} {chunks : List (List Block)}
    (hflatten : chunks.flatten = (pushBlocks maxSourceLevel typeFilter hash).filter Fits)
    (hfilled : Filled chunks) : chunks.length < 2 ^ 16 := by
  refine lt_of_le_of_lt (length_le_length_flatten hfilled) (lt_of_le_of_lt ?_ hroom)
  rw [hflatten]
  refine (List.length_filter_le _ _).trans ?_
  rw [pushBlocks, List.length_map]
  exact List.length_filter_le _ _

/-- What a peer pushes under a new id becomes part of the data of a node as a whole or not at all,
whatever is lost, doubled or reordered and whatever else the node does. -/
theorem sync_atomic {hash : DataHash} (hroom : hash.entries.length < 2 ^ 16)
    (maxSourceLevel : DataSource) (typeFilter : Option UInt8) {mac : EtherAddr} {id : UInt16}
    {g : Globals} (hg : Reached g) (hfresh : heads g (mac, id) = none) {xs : List (Env × Event)}
    {env : Env} {name : Bytes} {source : In6Addr} {buf : Bytes} {seqno : UInt16}
    (hgenuine : ∀ x ∈ xs ++ [(env, .recv name source buf)],
      Genuine mac id (pushData id maxSourceLevel typeFilter hash) x.2)
    (hmac : ipv6ToMac source = some mac) (hread : ReadsTxend buf id seqno) :
    (∀ k, (run g (xs ++ [(env, .recv name source buf)])).dataHash.find k =
        (mergeBlocks env.now mac (run g xs).dataHash
          ((pushBlocks maxSourceLevel typeFilter hash).filter Fits)).find k) ∨
      (run g (xs ++ [(env, .recv name source buf)])).dataHash = (run g xs).dataHash := by
  obtain ⟨chunks, hflatten, hfilled, hpush⟩ := pushData_spec id maxSourceLevel typeFilter hash
  have hsub : ∀ b ∈ pushData id maxSourceLevel typeFilter hash, b ∈ pushed id chunks := by
    intro b hb
    rw [hpush] at hb
    rcases List.mem_append.mp hb with hb | hb
    · exact List.mem_append_left _ hb
    · split_ifs at hb
      exact List.mem_append_right _ hb
      cases hb
  have hgenuine' : ∀ x ∈ xs ++ [(env, .recv name source buf)], Genuine mac id (pushed id chunks) x.2 := by
    intro x hx
    have hx' := hgenuine x hx
    cases h : x.2 with
    | recv name' source' buf' =>
      rw [h] at hx'
      exact fun hmac' hbelongs => hsub _ (hx' hmac' hbelongs)
    | _ => trivial
  have hcount := length_chunks hroom hflatten hfilled
  have hnodup : (chunks.flatten.map blockKey).Nodup := by
    rw [hflatten]
    exact (List.filter_sublist.map blockKey).nodup (nodup_pushBlocks _ _ _)
  have hcollected : Collected mac id chunks g := by
    intro head hhead
    rw [hfresh] at hhead
    cases hhead
  have hxs : SoundHeads (run g xs) ∧ Collected mac id chunks (run g xs) :=
    run_induction (collected_step mac hfilled)
      (fun x hx => hgenuine' x (List.mem_append_left _ hx)) ⟨hg.soundHeads, hcollected⟩
  have hbuf := hgenuine' (env, .recv name source buf) (by simp) hmac (.inr ⟨seqno, hread⟩)
  rw [← hflatten, run_append]
  exact txend_atomic env name hcount hnodup hxs hmac hread hbuf

end Atomic

section Complete

/-- What of the interfaces decides which packets are read. -/
def sockets (g : Globals) : List (Bytes × In6Addr × Bool) :=
  g.interfaces.map fun i => (i.name, i.address, i.netsock)

/-- A packet of the peer that arrives there is looked at. -/
def Listens (g : Globals) (name : Bytes) (mac : EtherAddr) : Prop :=
  (∃ s, (sockets g).find? (fun s => s.1 = name) = some s ∧ s.2.2 = true) ∧
    ∀ s ∈ sockets g, s.2.1 ≠ macToIpv6 mac

theorem Listens.interface {g : Globals} {name : Bytes} {mac : EtherAddr} (h : Listens g name mac) :
    ∃ i, g.interfaces.find? (fun i => i.name = name) = some i ∧ i.netsock = true ∧
      ownAddress g (macToIpv6 mac) = false := by
  obtain ⟨⟨s, hfind, hopen⟩, hown⟩ := h
  rw [sockets, List.find?_map, Option.map_eq_some_iff] at hfind
  obtain ⟨i, hi, rfl⟩ := hfind
  refine ⟨i, hi, hopen, ?_⟩
  rw [ownAddress, List.any_eq_false]
  intro j hj heq
  exact hown _ (List.mem_map_of_mem hj) (by simpa using Eq.symm (of_decide_eq_true heq))

variable (env : Env) {g : Globals} {name : Bytes} {mac : EtherAddr} {id seqno : UInt16}

section Arrival
variable {header : Tlv} {buf body : Bytes} (hlistens : Listens g name mac)
    (hbuf : takeTlv buf = some (header, body)) (hlength : header.length.toNat ≤ body.length)
    (hversion : header.version = alfredVersion)
include hlistens hbuf hlength hversion

theorem step_push (htype : header.type = alfredPushData) :
    step env g (.recv name (macToIpv6 mac) buf) =
      (processAlfredPushData env g (macToIpv6 mac) header body, []) := by
  obtain ⟨i, hi, hopen, hown⟩ := hlistens.interface
  simp only [step, hi, recvAlfredPacket, hopen, isIpv6Eui64_macToIpv6, hown, hbuf, hversion,
    Nat.not_lt.mpr hlength, htype, Bool.not_true, Bool.false_eq_true, ne_eq, not_true_eq_false, if_true,
    if_false]

theorem step_txend (htype : header.type = alfredStatusTxend) :
    step env g (.recv name (macToIpv6 mac) buf) =
      processAlfredStatusTxend env g (macToIpv6 mac) header body := by
  obtain ⟨i, hi, hopen, hown⟩ := hlistens.interface
  simp only [step, hi, recvAlfredPacket, hopen, isIpv6Eui64_macToIpv6, hown, hbuf, hversion,
    Nat.not_lt.mpr hlength, htype, Bool.not_true, Bool.false_eq_true, ne_eq, not_true_eq_false, if_true,
    if_false, show ¬ alfredStatusTxend = alfredPushData by decide,
    show ¬ alfredStatusTxend = alfredAnnounceMaster by decide,
    show ¬ alfredStatusTxend = alfredRequest by decide]

end Arrival

/-- A master creates the transactions of others, and a slave has created it. -/
def Opened (g : Globals) (mac : EtherAddr) (id : UInt16) : Prop :=
  g.opmode = .master ∨ (heads g (mac, id)).isSome

theorem step_pushPacket (id seqno : UInt16) (hlistens : Listens g name mac)
    (hvalid : isValidEtherAddr mac = true) (hopened : Opened g mac id) {data : Bytes} (hroom : data.length ≤ room) :
    ∃ head, HeadFor g env.now mac id head ∧
      heads (stepTo g (env, .recv name (macToIpv6 mac) (pushPacket id seqno data))) =
        Function.update (heads g) (mac, id) (some (keepPacket env.now head seqno data)) := by
  have hmac : ipv6ToMac (macToIpv6 mac) = some mac := ipv6ToMac_eq_some.mpr ⟨rfl, hvalid⟩
  obtain ⟨header, body, hbuf, htype, hlength, htx⟩ :=
    (readsPush_pushPacket id seqno hroom).mpr ⟨rfl, rfl, rfl⟩
  have hversion : header.version = alfredVersion := by
    rw [← (takeTlv_unique (takeTlv_packet _ _) hbuf).1]
  have hlong : ¬ header.length.toNat < 4 := by
    intro hshort
    have hlen : (body.take header.length.toNat).length < 4 := by
      rw [List.length_take]
      omega
    match body.take header.length.toNat, htx, hlen with
    | _ :: _ :: _ :: _ :: rest, _, hlen =>
      simp only [List.length_cons] at hlen
      omega
  rw [stepTo, step_push env hlistens hbuf hlength hversion htype]
  simp only [processAlfredPushData, hmac, if_neg hlong, htx]
  cases hfind : g.transactionHash.find (mac, id) with
  | some head =>
    obtain ⟨hmac', hid⟩ := head_key g hfind
    obtain ⟨hkeep, hkeep'⟩ := keepPacket_key env.now head seqno data
    refine ⟨head, .inl hfind, ?_⟩
    rw [heads_setHead, hkeep, hkeep', hmac', hid]
  | none =>
    have hmode : g.opmode = .master := by
      refine hopened.resolve_right fun hsome => ?_
      rw [show heads g (mac, id) = none from hfind] at hsome
      cases hsome
    obtain ⟨hkeep, hkeep'⟩ := keepPacket_key env.now (freshHead mac id env.now) seqno data
    refine ⟨freshHead mac id env.now, .inr ⟨hfind, hmode, rfl⟩, ?_⟩
    simp only [hmode, ne_eq, not_true_eq_false, if_false,
      transactionAdd_eq_some g env.now hfind]
    rw [heads_setHead, heads_setHead, hkeep, hkeep']
    exact Function.update_idem _ _ _

theorem step_statusPacket (hlistens : Listens g name mac) (hvalid : isValidEtherAddr mac = true)
    {head : TransactionHead} (hhead : heads g (mac, id) = some head) (hfinished : head.finished = 0) :
    step env g (.recv name (macToIpv6 mac) (statusPacket alfredStatusTxend id seqno)) =
      finishTransaction env g mac head seqno := by
  have hmac : ipv6ToMac (macToIpv6 mac) = some mac := ipv6ToMac_eq_some.mpr ⟨rfl, hvalid⟩
  have htlv := takeTlv_packet alfredStatusTxend (htons id ++ htons seqno)
  have htx : takeTx (htons id ++ htons seqno) = some ((id, seqno), []) := by
    simpa using takeTx_htons id seqno []
  have hfour : UInt16.ofNat (htons id ++ htons seqno).length = 4 := rfl
  rw [statusPacket, step_txend env hlistens htlv (by rw [hfour]; rfl) rfl rfl]
  simp only [processAlfredStatusTxend, hfour, hmac, htx, show g.transactionHash.find (mac, id) = _ from hhead,
    hfinished, ne_eq, not_true_eq_false, if_false]

theorem sockets_onInterface (env' : Env) (g' : Globals) (interface : Bytes) (source : In6Addr) :
    sockets (onInterface g interface (hearServer env' g' source mac)) = sockets g := by
  rw [sockets, sockets, onInterface, List.map_map]
  refine List.map_congr_left fun i _ => ?_
  rw [Function.comp_apply]
  split_ifs <;> rfl

/-- The packets that arrive do not change which ones are looked at. -/
theorem recv_frame (g : Globals) (name : Bytes) (source : In6Addr) (buf : Bytes) :
    (stepTo g (env, .recv name source buf)).opmode = g.opmode ∧
      sockets (stepTo g (env, .recv name source buf)) = sockets g := by
  simp only [stepTo, step]
  cases g.interfaces.find? fun i => i.name = name with
  | none => exact ⟨rfl, rfl⟩
  | some i =>
    rcases recvAlfredPacket_network env g i source buf with h | ⟨header, h⟩
    · exact ⟨h.opmode, by rw [sockets, h.interfaces, sockets]⟩
    · simp only [h]
      rcases processAlfredAnnounceMaster_cases env g i.name source header with
        heq | ⟨mac, -, heq⟩
      · rw [heq]
        exact ⟨rfl, rfl⟩
      · rw [heq]
        split_ifs
        · exact ⟨rfl, sockets_onInterface env g i.name source⟩
        · exact ⟨rfl, sockets_onInterface env g i.name source⟩

/-- The packet of this number has arrived. -/
def Arrived (mac : EtherAddr) (id seqno : UInt16) (g : Globals) : Prop :=
  ∃ head, heads g (mac, id) = some head ∧ seqno ∈ head.packetList.map TransactionPacket.seqno

theorem keepPacket_subset {head : TransactionHead} (h : head.finished = 0) (now : Timespec)
    (seqno : UInt16) (data : Bytes) : seqno :: head.packetList.map TransactionPacket.seqno ⊆
      (keepPacket now head seqno data).packetList.map TransactionPacket.seqno := by
  rcases keepPacket_packetList h now seqno data with ⟨hthere, heq⟩ | ⟨-, heq⟩
  · rw [heq]
    exact List.cons_subset.mpr ⟨hthere, List.Subset.refl _⟩
  · rw [heq, List.map_append]
    simp

variable {chunks : List (List Block)}

theorem keepPacket_client (now : Timespec) (head : TransactionHead) (seqno : UInt16) (data : Bytes) :
    (keepPacket now head seqno data).clientSocket = head.clientSocket ∧
      (keepPacket now head seqno data).requestedType = head.requestedType := by
  simp only [keepPacket]
  split_ifs <;> exact ⟨rfl, rfl⟩

/-- While only packets of the transaction arrive it goes on. -/
structure GoesOn (head head' : TransactionHead) : Prop where
  clientSocket : head'.clientSocket = head.clientSocket
  requestedType : head'.requestedType = head.requestedType
  arrived : head.packetList.map TransactionPacket.seqno ⊆ head'.packetList.map TransactionPacket.seqno

theorem GoesOn.refl (head : TransactionHead) : GoesOn head head := ⟨rfl, rfl, List.Subset.refl _⟩

theorem GoesOn.trans {head head' head'' : TransactionHead} (h : GoesOn head head')
    (h' : GoesOn head' head'') : GoesOn head head'' :=
  ⟨h'.clientSocket.trans h.clientSocket, h'.requestedType.trans h.requestedType,
    fun _ hs => h'.arrived (h.arrived hs)⟩

theorem goesOn_step (hg : SoundHeads g) {head : TransactionHead} (hhead : heads g (mac, id) = some head)
    {source : In6Addr} {buf : Bytes}
    (hgenuine : Genuine mac id (packets id chunks) (.recv name source buf)) :
    ∃ head', heads (stepTo g (env, .recv name source buf)) (mac, id) = some head' ∧ GoesOn head head' := by
  have hchange := step_change env g (.recv name source buf)
  generalize closes (step env g (.recv name source buf)).2 = closed at hchange
  unfold stepTo
  cases hchange with
  | quiet hdata htx => exact ⟨head, by rwa [heads, htx], .refl head⟩
  | @pushed _ _ _ data mac' id' seqno' head' _ hmac hread hhead' hdata htx =>
    by_cases hkey : (mac', id') = (mac, id)
    · obtain ⟨rfl, rfl⟩ := Prod.mk.inj hkey
      rcases hhead' with hhead' | ⟨hnone, -, -⟩
      · rw [hhead, Option.some_inj] at hhead'
        subst hhead'
        obtain ⟨hsocket, htype⟩ := keepPacket_client env.now head seqno' data
        have hkeep := keepPacket_subset (hg _ _ hhead).finished env.now seqno' data
        exact ⟨_, by rw [htx, Function.update_self],
          ⟨hsocket, htype, fun _ hs => hkeep (List.mem_cons_of_mem _ hs)⟩⟩
      · rw [hhead] at hnone
        cases hnone
    · exact ⟨head, by rw [htx, Function.update_of_ne (Ne.symm hkey), hhead], .refl head⟩
  | @ended _ _ _ mac' id' seqno' head' _ hmac hread hhead' hfinished hdata htx =>
    by_cases hkey : (mac', id') = (mac, id)
    · obtain ⟨rfl, rfl⟩ := Prod.mk.inj hkey
      obtain ⟨i, hi, rfl⟩ := List.mem_mapIdx.mp (hgenuine hmac (.inr ⟨seqno', hread⟩))
      exact absurd hread not_readsTxend_pushPacket
    · exact ⟨head, by rw [htx, Function.update_of_ne (Ne.symm hkey), hhead], .refl head⟩

theorem arrived_step (hg : SoundHeads g) (harrived : Arrived mac id seqno g) {source : In6Addr}
    {buf : Bytes} (hgenuine : Genuine mac id (packets id chunks) (.recv name source buf)) :
    Arrived mac id seqno (stepTo g (env, .recv name source buf)) := by
  obtain ⟨head, hhead, hmem⟩ := harrived
  obtain ⟨head', hhead', hgoes⟩ := goesOn_step env hg hhead hgenuine
  exact ⟨head', hhead', hgoes.arrived hmem⟩

theorem arrived_pushPacket (hg : SoundHeads g) (hlistens : Listens g name mac)
    (hvalid : isValidEtherAddr mac = true) (hopened : Opened g mac id) {data : Bytes}
    (hroom : data.length ≤ room) : Arrived mac id seqno
      (stepTo g (env, .recv name (macToIpv6 mac) (pushPacket id seqno data))) := by
  obtain ⟨head, hhead, hheads⟩ := step_pushPacket env id seqno hlistens hvalid hopened hroom
  have hkeep := keepPacket_subset (hhead.sound hg).finished env.now seqno data
  exact ⟨_, by rw [hheads, Function.update_self], hkeep List.mem_cons_self⟩

/-- A node that waits for packets of the transaction. -/
structure Receiving (name : Bytes) (mac : EtherAddr) (id : UInt16) (chunks : List (List Block))
    (g : Globals) : Prop where
  sound : SoundHeads g
  collected : Collected mac id chunks g
  opened : Opened g mac id
  listens : Listens g name mac

def IsRecv : Event → Prop
  | .recv .. => True
  | _ => False

theorem receiving_step (hfilled : Filled chunks) (x : Env × Event) (hg : Receiving name mac id chunks g)
    (hrecv : IsRecv x.2) (hgenuine : Genuine mac id (packets id chunks) x.2) :
    Receiving name mac id chunks (stepTo g x) := by
  obtain ⟨env, e⟩ := x
  cases e with
  | recv name' source buf =>
    have hgenuine' : Genuine mac id (pushed id chunks) (.recv name' source buf) :=
      fun hmac hbelongs => List.mem_append_left _ (hgenuine hmac hbelongs)
    obtain ⟨hsound, hcollected⟩ := collected_step mac hfilled g (env, .recv name' source buf)
      ⟨hg.sound, hg.collected⟩ hgenuine'
    obtain ⟨hmode, hsockets⟩ := recv_frame env g name' source buf
    refine ⟨hsound, hcollected, ?_, ?_⟩
    · rcases hg.opened with hmaster | hsome
      · exact .inl (hmode.trans hmaster)
      · obtain ⟨head, hhead⟩ := Option.isSome_iff_exists.mp hsome
        obtain ⟨head', hhead', -⟩ := goesOn_step env hg.sound hhead hgenuine
        exact .inr (Option.isSome_iff_exists.mpr ⟨head', hhead'⟩)
    · rw [Listens, hsockets]
      exact hg.listens
  | _ => cases hrecv

theorem receiving_run (hfilled : Filled chunks) {xs : List (Env × Event)}
    (hrecv : ∀ x ∈ xs, IsRecv x.2) (hgenuine : ∀ x ∈ xs, Genuine mac id (packets id chunks) x.2)
    (hg : Receiving name mac id chunks g) : Receiving name mac id chunks (run g xs) :=
  run_induction (Q := fun x => IsRecv x.2 ∧ Genuine mac id (packets id chunks) x.2)
    (fun _ x h hx => receiving_step hfilled x h hx.1 hx.2)
    (fun x hx => ⟨hrecv x hx, hgenuine x hx⟩) hg

theorem arrived_run (hfilled : Filled chunks) (hvalid : isValidEtherAddr mac = true)
    {xs : List (Env × Event)} (hrecv : ∀ x ∈ xs, IsRecv x.2)
    (hgenuine : ∀ x ∈ xs, Genuine mac id (packets id chunks) x.2)
    (hg : Receiving name mac id chunks g) {data : Bytes} (hroom : data.length ≤ room)
    (hmem : (env, .recv name (macToIpv6 mac) (pushPacket id seqno data)) ∈ xs) :
    Arrived mac id seqno (run g xs) := by
  obtain ⟨before, rest, rfl⟩ := List.append_of_mem hmem
  have hbefore : Receiving name mac id chunks (run g before) :=
    receiving_run hfilled (fun x hx => hrecv x (List.mem_append_left _ hx))
      (fun x hx => hgenuine x (List.mem_append_left _ hx)) hg
  rw [List.append_cons, run_append, run_append]
  have hnow : Arrived mac id seqno
      (run (run g before) [(env, .recv name (macToIpv6 mac) (pushPacket id seqno data))]) :=
    arrived_pushPacket env hbefore.sound hbefore.listens hvalid hbefore.opened hroom
  have hsound := soundHeads_run hbefore.sound
    [(env, .recv name (macToIpv6 mac) (pushPacket id seqno data))]
  refine (run_induction (P := fun g => SoundHeads g ∧ Arrived mac id seqno g)
    (Q := fun x => IsRecv x.2 ∧ Genuine mac id (packets id chunks) x.2) ?_ ?_ ⟨hsound, hnow⟩).2
  · rintro g ⟨env, e⟩ ⟨hg, harrived⟩ ⟨hr, hq⟩
    cases e with
    | recv name' source buf => exact ⟨soundHeads_step _ _ hg, arrived_step env hg harrived hq⟩
    | _ => cases hr
  · intro x hx
    have hx' : x ∈ before ++ (env, .recv name (macToIpv6 mac) (pushPacket id seqno data)) :: rest :=
      List.mem_append_right _ (List.mem_cons_of_mem _ hx)
    exact ⟨hrecv x hx', hgenuine x hx'⟩

theorem arrived_all (hfilled : Filled chunks) (hvalid : isValidEtherAddr mac = true)
    {xs : List (Env × Event)} (hrecv : ∀ x ∈ xs, IsRecv x.2)
    (hgenuine : ∀ x ∈ xs, Genuine mac id (packets id chunks) x.2) (hg : Receiving name mac id chunks g)
    (hall : ∀ buf ∈ packets id chunks, ∃ env, (env, Event.recv name (macToIpv6 mac) buf) ∈ xs) :
    ∀ i < chunks.length, Arrived mac id (UInt16.ofNat i) (run g xs) := by
  intro i hi
  have hmem : pushPacket id (UInt16.ofNat i) (chunks[i].flatMap Block.bytes) ∈ packets id chunks :=
    List.mem_mapIdx.mpr ⟨i, hi, rfl⟩
  obtain ⟨env, henv⟩ := hall _ hmem
  exact arrived_run env hfilled hvalid hrecv hgenuine hg (length_chunk hfilled (List.getElem_mem hi)) henv

theorem nodup_transactionPackets (hroom : chunks.length < 2 ^ 16) :
    ((transactionPackets chunks).map TransactionPacket.seqno).Nodup := by
  rw [List.nodup_iff_injective_getElem]
  rintro ⟨i, hi⟩ ⟨j, hj⟩ heq
  simp only [transactionPackets, List.length_map, List.length_mapIdx] at hi hj
  simp only [transactionPackets, List.getElem_map, List.getElem_mapIdx] at heq
  have hnat := congrArg UInt16.toNat heq
  rw [UInt16.toNat_ofNat', UInt16.toNat_ofNat', Nat.mod_eq_of_lt (hi.trans hroom),
    Nat.mod_eq_of_lt (hj.trans hroom)] at hnat
  exact Fin.ext hnat

/-- When all packets are there the end of the transaction finishes it. -/
theorem txend_finish (hroom : chunks.length < 2 ^ 16) (hvalid : isValidEtherAddr mac = true)
    (hg : Receiving name mac id chunks g) {head : TransactionHead}
    (hhead : heads g (mac, id) = some head)
    (harrived : ∀ i < chunks.length, Arrived mac id (UInt16.ofNat i) g) :
    head.numPacket = (UInt16.ofNat chunks.length).toNat ∧
      step env g (.recv name (macToIpv6 mac) (statusPacket alfredStatusTxend id
        (UInt16.ofNat chunks.length))) =
        finishTransaction env g mac head (UInt16.ofNat chunks.length) := by
  have hsubset := hg.collected head hhead
  have hsound := hg.sound _ _ hhead
  have hseqnos : (transactionPackets chunks).map TransactionPacket.seqno ⊆
      head.packetList.map TransactionPacket.seqno := by
    intro s hs
    obtain ⟨p, hp, rfl⟩ := List.mem_map.mp hs
    obtain ⟨i, hi, rfl⟩ := List.mem_mapIdx.mp hp
    obtain ⟨head', hhead', hmem⟩ := harrived i hi
    rw [hhead, Option.some_inj] at hhead'
    rwa [hhead']
  have hdistinct := nodup_transactionPackets hroom
  refine ⟨?_, step_statusPacket env hg.listens hvalid hhead hsound.finished⟩
  have hle := (List.subperm_of_subset hsound.nodup.of_map hsubset).length_le
  have hge := (List.subperm_of_subset hdistinct hseqnos).length_le
  simp only [transactionPackets, List.length_map, List.length_mapIdx] at hle hge
  rw [hsound.count, UInt16.toNat_ofNat', Nat.mod_eq_of_lt hroom]
  omega

theorem finishTransaction_complete (hroom : chunks.length < 2 ^ 16)
    (hnodup : (chunks.flatten.map blockKey).Nodup) (hg : Receiving name mac id chunks g)
    {head : TransactionHead} (hhead : heads g (mac, id) = some head)
    (hcount : head.numPacket = (UInt16.ofNat chunks.length).toNat) (k : DataKey) :
    (finishTransaction env g mac head (UInt16.ofNat chunks.length)).1.dataHash.find k =
      (mergeBlocks env.now mac g.dataHash chunks.flatten).find k := by
  have hperm := (hg.sound _ _ hhead).perm (hg.collected head hhead) hroom hcount
  have hblocks := hperm.flatMap_right fun p => blocksOf p.data
  rw [flatMap_transactionPackets] at hblocks
  rw [(finishTransaction_spec env g mac head _).1, if_pos hcount]
  exact (find_mergeBlocks_perm hnodup hblocks.symm k).symm

/-- When a master gets all packets of a push, in any order and some of them twice, and among the
packets of others, the last one merges everything that was pushed. -/
theorem sync_complete {hash : DataHash} (hroom : hash.entries.length < 2 ^ 16)
    {maxSourceLevel : DataSource} {typeFilter : Option UInt8} {ps : List Bytes} {txend : Bytes}
    (hpush : pushData id maxSourceLevel typeFilter hash = ps ++ [txend])
    (hg : Reached g) (hmode : g.opmode = .master) (hfresh : heads g (mac, id) = none)
    (hlistens : Listens g name mac) (hvalid : isValidEtherAddr mac = true) {xs : List (Env × Event)}
    (hrecv : ∀ x ∈ xs, IsRecv x.2) (hgenuine : ∀ x ∈ xs, Genuine mac id ps x.2)
    (hall : ∀ buf ∈ ps, ∃ env, (env, Event.recv name (macToIpv6 mac) buf) ∈ xs) (k : DataKey) :
    (run g (xs ++ [(env, .recv name (macToIpv6 mac) txend)])).dataHash.find k =
      (mergeBlocks env.now mac (run g xs).dataHash
        ((pushBlocks maxSourceLevel typeFilter hash).filter Fits)).find k := by
  obtain ⟨chunks, hflatten, hfilled, hpush'⟩ := pushData_spec id maxSourceLevel typeFilter hash
  obtain ⟨rfl, rfl⟩ : ps = packets id chunks ∧
      txend = statusPacket alfredStatusTxend id (UInt16.ofNat chunks.length) := by
    rw [hpush] at hpush'
    split_ifs at hpush' with hsent
    · obtain ⟨hps', htxend⟩ := List.append_inj' hpush' rfl
      exact ⟨hps', List.singleton_inj.mp htxend⟩
    · rw [not_or, UInt16.lt_iff_toNat_lt, UInt16.toNat_ofNat',
        Nat.mod_eq_of_lt (length_chunks hroom hflatten hfilled)] at hsent
      have hnil : chunks = [] := List.length_eq_zero_iff.mp (Nat.eq_zero_of_not_pos hsent.1)
      rw [hnil] at hpush'
      simp [packets] at hpush'
  have hcount := length_chunks hroom hflatten hfilled
  have hnodup : (chunks.flatten.map blockKey).Nodup := by
    rw [hflatten]
    exact (List.filter_sublist.map blockKey).nodup (nodup_pushBlocks _ _ _)
  have hstart : Receiving name mac id chunks g := by
    refine ⟨hg.soundHeads, ?_, .inl hmode, hlistens⟩
    intro head hhead
    rw [hfresh] at hhead
    cases hhead
  have hxs := receiving_run hfilled hrecv hgenuine hstart
  rw [run_append, ← hflatten]
  by_cases hne : chunks = []
  · -- Then there was nothing to push, and nothing comes of the end.
    subst hne
    rcases txend_atomic env name hcount hnodup ⟨hxs.sound, hxs.collected⟩
      (ipv6ToMac_eq_some.mpr ⟨rfl, hvalid⟩) (readsTxend_statusPacket.mpr ⟨rfl, rfl⟩)
      (List.mem_append_right _ List.mem_cons_self) with h | h
    · exact h k
    · exact congrArg (fun hash => Table.find hash k) h
  have harrived := arrived_all hfilled hvalid hrecv hgenuine hstart hall
  obtain ⟨head, hhead, -⟩ := harrived 0 (List.length_pos_iff.mpr hne)
  obtain ⟨hnum, hstep⟩ := txend_finish env hcount hvalid hxs hhead harrived
  have hlast : (run (run g xs) [(env, .recv name (macToIpv6 mac) (statusPacket alfredStatusTxend id
      (UInt16.ofNat chunks.length)))]) =
      (finishTransaction env (run g xs) mac head (UInt16.ofNat chunks.length)).1 :=
    congrArg Prod.fst hstep
  rw [hlast]
  exact finishTransaction_complete env hcount hnodup hxs hhead hnum k

end Complete

section Sample

def sampleMac : EtherAddr := ⟨2, 0, 0, 0, 0, 1⟩

def sampleBlock : Block := ⟨⟨2, 0, 0, 0, 0, 7⟩, 66, 1, [104, 105], by decide⟩

def sampleHash : DataHash := Table.empty.put ⟨sampleBlock, ⟨0, 0⟩, .sourceLocal⟩

def sampleEnv : Env := ⟨⟨0, 0⟩, fun _ => 0, fun _ => 0, 0⟩

/-- A master on one interface whose sockets are open. -/
def sampleNode : Globals :=
  run (globalsInit ⟨.master, [97], [98], none⟩ ⟨0, 0⟩)
    [(sampleEnv, .reopen (fun _ => some (⟨2, 0, 0, 0, 0, 9⟩, 3)) fun _ => true)]

def samplePush : Bytes := pushPacket 5 0 sampleBlock.bytes
def sampleTxend : Bytes := statusPacket alfredStatusTxend 5 1

theorem pushData_sampleHash :
    pushData 5 .sourceFirstHand none sampleHash = [samplePush] ++ [sampleTxend] := by decide

theorem reached_sampleNode : Reached sampleNode := ⟨_, _, _, rfl⟩

theorem sampleHash_room : sampleHash.entries.length < 2 ^ 16 := by decide

theorem listens_sampleNode : Listens sampleNode [97] sampleMac :=
  ⟨⟨_, rfl, rfl⟩, by decide⟩

theorem sync_atomic_sample :
    (∀ k, (run sampleNode ([(sampleEnv, .recv [97] (macToIpv6 sampleMac) samplePush)] ++
          [(sampleEnv, .recv [97] (macToIpv6 sampleMac) sampleTxend)])).dataHash.find k =
        (mergeBlocks ⟨0, 0⟩ sampleMac
          (run sampleNode [(sampleEnv, .recv [97] (macToIpv6 sampleMac) samplePush)]).dataHash
          ((pushBlocks .sourceFirstHand none sampleHash).filter Fits)).find k) ∨
      (run sampleNode ([(sampleEnv, .recv [97] (macToIpv6 sampleMac) samplePush)] ++
          [(sampleEnv, .recv [97] (macToIpv6 sampleMac) sampleTxend)])).dataHash =
        (run sampleNode [(sampleEnv, .recv [97] (macToIpv6 sampleMac) samplePush)]).dataHash := by
  refine sync_atomic sampleHash_room .sourceFirstHand none reached_sampleNode rfl ?_ rfl
    (readsTxend_statusPacket.mpr ⟨rfl, rfl⟩)
  rw [pushData_sampleHash]
  simp [Genuine]

theorem sync_complete_sample :
    (run sampleNode ([(sampleEnv, .recv [97] (macToIpv6 sampleMac) samplePush)] ++
        [(sampleEnv, .recv [97] (macToIpv6 sampleMac) sampleTxend)])).dataHash.find
          (blockKey sampleBlock) =
      (mergeBlocks ⟨0, 0⟩ sampleMac
        (run sampleNode [(sampleEnv, .recv [97] (macToIpv6 sampleMac) samplePush)]).dataHash
        ((pushBlocks .sourceFirstHand none sampleHash).filter Fits)).find (blockKey sampleBlock) := by
  have hgenuine : ∀ x ∈ [(sampleEnv, Event.recv [97] (macToIpv6 sampleMac) samplePush)],
      Genuine sampleMac 5 [samplePush] x.2 := by
    simp [Genuine]
  exact sync_complete sampleEnv sampleHash_room pushData_sampleHash reached_sampleNode rfl rfl
    listens_sampleNode rfl (by simp [IsRecv]) hgenuine (by simp) (blockKey sampleBlock)

end Sample

end NexFi.AlfredServer
