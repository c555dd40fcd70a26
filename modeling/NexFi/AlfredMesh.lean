import NexFi.AlfredSync

/-!
# The nodes of a mesh

Nodes take their steps in any order, and a packet that was sent may arrive at any
node, at any time, more than once or never. Nothing else is on the air. So all data
come from clients, and what a node takes for first-hand was sent under the address
that it names.
-/

namespace NexFi.AlfredMesh
open AlfredServer AlfredPacket AlfredData ChainTable

section Meshes
variable {N : Type}

structure Mesh (N : Type) where
  nodes : N → Globals
  air : List (In6Addr × Bytes)

structure Act (N : Type) where
  node : N
  env : Env
  event : Event

/-- What a node sends, each packet under the address of the interface that it leaves by. -/
def emitted (g : Globals) (out : List Output) : List (In6Addr × Bytes) :=
  out.filterMap fun
    | .sendto name _ buf => (g.interfaces.find? fun i => i.name = name).map fun i => (i.address, buf)
    | _ => none

/-- Only what was sent arrives. -/
def Possible (m : Mesh N) (a : Act N) : Prop :=
  ∀ name source buf, a.event = .recv name source buf → (source, buf) ∈ m.air

def meshInit (options : N → Options) (start : Timespec) : Mesh N :=
  ⟨fun n => globalsInit (options n) start, []⟩

def meshStep [DecidableEq N] (m : Mesh N) (a : Act N) : Mesh N where
  nodes := Function.update m.nodes a.node (step a.env (m.nodes a.node) a.event).1
  air := m.air ++ emitted (m.nodes a.node) (step a.env (m.nodes a.node) a.event).2

@[simp] theorem nodes_meshStep_self [DecidableEq N] (m : Mesh N) (a : Act N) :
    (meshStep m a).nodes a.node = (step a.env (m.nodes a.node) a.event).1 := Function.update_self ..

theorem nodes_meshStep_of_ne [DecidableEq N] (m : Mesh N) (a : Act N) {n : N} (h : n ≠ a.node) :
    (meshStep m a).nodes n = m.nodes n := Function.update_of_ne h _ _

inductive MeshRun [DecidableEq N] (m₀ : Mesh N) : List (Act N) → Mesh N → Prop
  | nil : MeshRun m₀ [] m₀
  | snoc {acts : List (Act N)} {m : Mesh N} {a : Act N} (h : MeshRun m₀ acts m) (hpossible : Possible m a) :
      MeshRun m₀ (acts ++ [a]) (meshStep m a)

/-- One after the other. -/
def Feasible [DecidableEq N] : Mesh N → List (Act N) → Prop
  | _, [] => True
  | m, a :: acts => Possible m a ∧ Feasible (meshStep m a) acts

theorem MeshRun.append [DecidableEq N] {m₀ m : Mesh N} {before acts : List (Act N)}
    (h : MeshRun m₀ before m) (hacts : Feasible m acts) :
    MeshRun m₀ (before ++ acts) (acts.foldl meshStep m) := by
  induction acts generalizing before m with
  | nil => rwa [List.append_nil]
  | cons a acts ih =>
    rw [List.append_cons]
    exact ih (h.snoc hacts.1) hacts.2

end Meshes

section Clients

/-- A client hands over this block, and the node accepts it. -/
def Hands (g : Globals) (e : Event) (b : Block) : Prop :=
  ∃ sock buf c interface, e = .client sock buf ∧ ReadsData buf c ∧ firstInterface g = some interface ∧
    clientSource g interface c.source = some b.source ∧ b = { c with source := b.source }

/-- What the clients of a slave hand over carries the address of the slave. -/
theorem Hands.slave {g : Globals} {e : Event} {b : Block} (h : Hands g e b) (hslave : g.opmode = .slave) :
    ∃ i ∈ g.interfaces, b.source = i.hwaddr := by
  obtain ⟨sock, buf, c, interface, -, -, hinterface, hsource, -⟩ := h
  refine ⟨interface, List.mem_of_find?_eq_some hinterface, ?_⟩
  unfold clientSource at hsource
  have hmode : g.opmode ≠ .master := by rw [hslave]; decide
  split_ifs at hsource with hvalid hother
  · rw [not_and_or, not_not, not_not] at hother
    rcases hother with hother | hother
    · rw [← Option.some_inj.mp hsource, hother]
    · exact absurd hother hmode
  · exact (Option.some_inj.mp hsource).symm

end Clients

section Nodes

/-- All that a node holds is its own or was pushed by someone. -/
structure Known (P : EtherAddr → Block → Prop) (L : Block → Prop) (g : Globals) : Prop where
  data : ∀ k d, g.dataHash.find k = some d → d.dataSource = .sourceLocal ∧ L d.data ∨
    ∃ mac, d.dataSource = sourceFrom mac d.data ∧ P mac d.data
  packets : ∀ k head, heads g k = some head → ∀ p ∈ head.packetList, ∀ b ∈ blocksOf p.data, P k.1 b

/-- All blocks in a packet are known. -/
def Carries (P : Block → Prop) (buf : Bytes) : Prop :=
  ∀ id seqno data, ReadsPush buf id seqno data → ∀ b ∈ blocksOf data, P b

variable {P P' : EtherAddr → Block → Prop} {L L' : Block → Prop} {env : Env} {g g' : Globals}

theorem Known.mono (h : Known P L g) (hP : ∀ mac b, P mac b → P' mac b) (hL : ∀ b, L b → L' b) :
    Known P' L' g := by
  refine ⟨fun k d hd => ?_, fun k head hhead p hp b hb => hP _ b (h.packets k head hhead p hp b hb)⟩
  rcases h.data k d hd with ⟨hlocal, hown⟩ | ⟨mac, hsource, hpushed⟩
  · exact .inl ⟨hlocal, hL _ hown⟩
  · exact .inr ⟨mac, hsource, hP mac _ hpushed⟩

theorem Carries.mono {Q Q' : Block → Prop} {buf : Bytes} (h : Carries Q buf) (hQ : ∀ b, Q b → Q' b) :
    Carries Q' buf :=
  fun id seqno data hread b hb => hQ b (h id seqno data hread b hb)

theorem find_mergeBlocks_cases {now : Timespec} {mac : EtherAddr} {hash : DataHash} {bs : List Block}
    {k : DataKey} {d : Dataset} (h : (mergeBlocks now mac hash bs).find k = some d) :
    hash.find k = some d ∨ ∃ b ∈ bs, d = ⟨b, now, sourceFrom mac b⟩ := by
  induction bs generalizing hash with
  | nil => exact .inl h
  | cons b bs ih =>
    rcases ih h with h | ⟨c, hc, rfl⟩
    · rw [find_mergeBlock] at h
      split_ifs at h
      · exact .inr ⟨b, List.mem_cons_self, (Option.some_inj.mp h).symm⟩
      · exact .inl h
    · exact .inr ⟨c, List.mem_cons_of_mem b hc, rfl⟩

/-- What a step makes of the data sets. -/
theorem change_data_cases {e : Event} {closed : List ℕ} (h : Change env g e g' closed) {k : DataKey}
    {d : Dataset} (hfind : g'.dataHash.find k = some d) :
    g.dataHash.find k = some d ∨ (Hands g e d.data ∧ d.dataSource = .sourceLocal) ∨
      ∃ mac id head p, heads g (mac, id) = some head ∧ p ∈ head.packetList ∧ d.data ∈ blocksOf p.data ∧
        d.dataSource = sourceFrom mac d.data := by
  cases h with
  | quiet hdata htx => exact .inl (hdata ▸ hfind)
  | leaked hlost => exact .inl hfind
  | pushed hmac hread hhead hdata htx => exact .inl (hdata ▸ hfind)
  | @ended _ _ _ mac id _ head _ hmac hread hhead hfinished hdata htx =>
    rw [hdata] at hfind
    split_ifs at hfind
    · rcases find_mergeBlocks_cases hfind with h | ⟨b, hb, rfl⟩
      · exact .inl h
      · obtain ⟨p, hp, hb⟩ := List.mem_flatMap.mp hb
        exact .inr (.inr ⟨mac, id, head, p, hhead, hp, hb, rfl⟩)
    · exact .inl hfind
  | @handed sock buf c source interface _ hread hinterface hsource hdata htx =>
    rw [hdata, Table.find_put] at hfind
    split_ifs at hfind
    · obtain rfl := Option.some_inj.mp hfind
      exact .inr (.inl ⟨⟨sock, buf, c, interface, rfl, hread, hinterface, hsource, rfl⟩, rfl⟩)
    · exact .inl hfind
  | asked hread hmode hserver hnone hdata htx => exact .inl (hdata ▸ hfind)
  | purged hdata htx =>
    rw [hdata, Table.find_filter, Option.filter_eq_some_iff] at hfind
    exact .inl hfind.1

theorem mem_keepPacket {now : Timespec} {head : TransactionHead} {seqno : UInt16} {data : Bytes}
    {p : TransactionPacket} (h : p ∈ (keepPacket now head seqno data).packetList) :
    p ∈ head.packetList ∨ p = ⟨seqno, data⟩ := by
  simp only [keepPacket] at h
  split_ifs at h
  · exact .inl h
  · exact .inl h
  · rcases List.mem_append.mp h with h | h
    · exact .inl h
    · exact .inr (List.mem_singleton.mp h)

theorem known_step (hg : Known P L g) (e : Event)
    (hrecv : ∀ name source buf mac, e = .recv name source buf → ipv6ToMac source = some mac →
      Carries (P mac) buf)
    (hhands : ∀ b, Hands g e b → L b) : Known P L (step env g e).1 := by
  refine ⟨fun k d hd => ?_, fun k head hhead p hp b hb => ?_⟩
  · rcases change_data_cases (step_change env g e) hd with h | ⟨h, hlocal⟩ |
      ⟨mac, id, head, p, hhead, hp, hb, hsource⟩
    · exact hg.data k d h
    · exact .inl ⟨hlocal, hhands d.data h⟩
    · exact .inr ⟨mac, hsource, hg.packets (mac, id) head hhead p hp d.data hb⟩
  · rcases (step_change env g e).heads_cases hhead with h |
      ⟨name, source, buf, seqno, data, head', he, hmac, hread, hhead', rfl⟩ |
      ⟨sock, requestedType, rfl⟩
    · exact hg.packets k head h p hp b hb
    · rcases mem_keepPacket hp with hp | rfl
      · rcases hhead' with h | ⟨-, -, rfl⟩
        · exact hg.packets _ head' h p hp b hb
        · cases hp
      · exact hrecv name source buf k.1 he hmac _ seqno data hread b hb
    · cases hp

end Nodes

section Packets
variable {Q : Block → Prop} {env : Env} {g : Globals}

/-- What a node sends to others. -/
def Sent (g : Globals) (buf : Bytes) : Prop :=
  buf = packet alfredAnnounceMaster [] ∨
    (∃ id level typeFilter, buf ∈ pushData id level typeFilter g.dataHash) ∨
    ∃ requestedType id, buf = requestPacket requestedType id

theorem carries_of_type {type : UInt8} {body : Bytes} (h : type ≠ alfredPushData) :
    Carries Q (packet type body) := by
  rintro id seqno data ⟨header, body', hbuf, htype, -, -⟩
  obtain ⟨rfl, -⟩ := takeTlv_unique (takeTlv_packet type body) hbuf
  exact absurd htype h

theorem carries_pushData (hg : ∀ d ∈ g.dataHash.entries, Q d.data) {id : UInt16}
    {level : DataSource} {typeFilter : Option UInt8} {buf : Bytes}
    (h : buf ∈ pushData id level typeFilter g.dataHash) : Carries Q buf := by
  obtain ⟨chunks, hflatten, hfilled, hpush⟩ := pushData_spec id level typeFilter g.dataHash
  rw [hpush] at h
  rcases List.mem_append.mp h with h | h
  · intro id' seqno data hread b hb
    obtain ⟨-, hpacket⟩ := readsPush_packets hfilled h hread
    have hmem : b ∈ chunks.flatten := by
      rw [← flatMap_transactionPackets chunks]
      exact List.mem_flatMap.mpr ⟨_, hpacket, hb⟩
    rw [hflatten] at hmem
    obtain ⟨d, hd, rfl⟩ := List.mem_map.mp (List.mem_of_mem_filter hmem)
    exact hg d (List.mem_of_mem_filter hd)
  · split_ifs at h
    · rw [List.mem_singleton.mp h]
      exact carries_of_type (by decide)
    · cases h

theorem Sent.carries {buf : Bytes} (h : Sent g buf) (hg : ∀ d ∈ g.dataHash.entries, Q d.data) :
    Carries Q buf := by
  rcases h with rfl | ⟨id, level, typeFilter, h⟩ | ⟨requestedType, id, rfl⟩
  · exact carries_of_type (by decide)
  · exact carries_pushData hg h
  · exact carries_of_type (by decide)

theorem sent_sendAlfredPacket {i : Interface} {dest dest' : In6Addr} {buf buf' name : Bytes}
    (h : Output.sendto name dest buf ∈ sendAlfredPacket i dest' buf') : buf = buf' := by
  rw [mem_sendAlfredPacket, Output.sendto.injEq] at h
  exact h.2.2.2

theorem sent_processAlfredRequest {i : Interface} {source dest : In6Addr} {header : Tlv}
    {body name buf : Bytes}
    (h : Output.sendto name dest buf ∈ processAlfredRequest g i source header body) : Sent g buf := by
  unfold processAlfredRequest at h
  split_ifs at h
  · cases h
  · cases h
  split at h
  · obtain ⟨buf', hbuf, h⟩ := List.mem_flatMap.mp h
    rw [sent_sendAlfredPacket h]
    exact .inr (.inl ⟨_, _, _, hbuf⟩)
  · cases h

theorem sent_txend {source dest : In6Addr} {header : Tlv} {body name buf : Bytes}
    (h : Output.sendto name dest buf ∈ (processAlfredStatusTxend env g source header body).2) :
    False := by
  unfold processAlfredStatusTxend at h
  split_ifs at h
  · cases h
  · cases h
  split at h
  · split at h
    · cases h
    split_ifs at h
    · cases h
    · exact toClient_finishClient _ h
  · cases h

theorem sent_recv {i : Interface} {source dest : In6Addr} {name buf buf' : Bytes}
    (h : Output.sendto name dest buf ∈ (recvAlfredPacket env g i source buf').2) : Sent g buf := by
  revert h
  refine recvAlfredPacket_cases (motive := fun r => .sendto name dest buf ∈ r.2 → Sent g buf) env g i
    source buf' (fun h => ?_) (fun header body _ _ _ h => ?_) (fun header h => ?_)
    (fun header body h => ?_) fun header body _ _ h => ?_
  · cases h
  · cases h
  · cases h
  · exact sent_processAlfredRequest h
  · exact (sent_txend h).elim

theorem sent_unixSockReqData {sock : ℕ} {header : Tlv} {body : Bytes} {dest : In6Addr}
    {name buf : Bytes} (h : Output.sendto name dest buf ∈ (unixSockReqData env g sock header body).2) :
    Sent g buf := by
  unfold unixSockReqData at h
  by_cases hlength : header.length = 3
  swap
  · simp only [ne_eq, hlength, not_false_eq_true, if_true] at h
    cases h
  simp only [ne_eq, hlength, not_true_eq_false, if_false] at h
  split at h
  swap
  · cases h
  rename_i requestedType hi lo rest
  have hreply : Output.sendto name dest buf ∉
      unixSockReqDataReply env g sock (ntohs hi lo) requestedType :=
    fun h => toClient_unixSockReqDataReply g h
  cases hbest : g.bestServer with
  | none =>
    rw [hbest] at h
    exact absurd h hreply
  | some best =>
    cases hinterface : firstInterface g with
    | none =>
      rw [hbest, hinterface] at h
      exact absurd h hreply
    | some interface =>
      rw [hbest, hinterface] at h
      simp only at h
      by_cases hmode : g.opmode = .master
      · rw [if_pos hmode] at h
        exact absurd h hreply
      rw [if_neg hmode] at h
      cases hserver : deref g best with
      | none =>
        rw [hserver] at h
        cases h
      | some server =>
        simp only [hserver] at h
        cases hadd : transactionAdd g env.now server.hwaddr (ntohs hi lo) with
        | none =>
          rw [hadd] at h
          cases h
        | some added =>
          rw [hadd] at h
          rw [sent_sendAlfredPacket h]
          exact .inr (.inr ⟨_, _, rfl⟩)

theorem sent_client {sock : ℕ} {dest : In6Addr} {name buf buf' : Bytes}
    (h : Output.sendto name dest buf ∈ (unixSockRead env g sock buf').2) : Sent g buf := by
  revert h
  refine unixSockRead_cases (motive := fun r => .sendto name dest buf ∈ r.2 → Sent g buf) env g sock
    buf' (fun h => ?_) (fun header body _ _ _ h => ?_) (fun header body _ _ _ h => ?_)
    (fun header body h => ?_) fun header body h => ?_
  · cases List.mem_singleton.mp h
  · cases List.mem_singleton.mp h
  · exact sent_unixSockReqData h
  · cases List.mem_singleton.mp h
  · cases List.mem_singleton.mp h

theorem sent_round {lost : Bytes → Bool} {dest : In6Addr} {name buf : Bytes}
    (h : Output.sendto name dest buf ∈ (serverRound env g lost).2) : Sent g buf := by
  simp only [serverRound] at h
  rcases List.mem_append.mp h with h | h
  · obtain ⟨i, -, dest', buf', hsend, hbuf⟩ := mem_roundSends env g h
    rw [sent_sendAlfredPacket hsend]
    rcases hbuf with rfl | ⟨id, level, hpush, -⟩
    · exact .inl rfl
    · exact .inr (.inl ⟨id, level, none, hpush⟩)
  · rcases List.mem_append.mp h with h | h
    · obtain ⟨head, -, h⟩ := List.mem_flatMap.mp h
      exact (toClient_finishClient _ h).elim
    · unfold executeUpdateCommand at h
      split at h
      · cases h
      · simp only at h
        split_ifs at h
        · cases h
        · simp at h

theorem sent_step {e : Event} {dest : In6Addr} {name buf : Bytes}
    (h : Output.sendto name dest buf ∈ (step env g e).2) : Sent g buf := by
  cases e with
  | recv interface source buf' =>
    simp only [step] at h
    split at h
    · cases h
    · exact sent_recv h
  | client sock buf' => exact sent_client h
  | reopen device bound => cases h
  | error lost => cases h
  | round lost => exact sent_round h

theorem mem_emitted {out : List Output} {address : In6Addr} {buf : Bytes}
    (h : (address, buf) ∈ emitted g out) : ∃ i ∈ g.interfaces, i.address = address ∧
      ∃ name dest, .sendto name dest buf ∈ out := by
  obtain ⟨o, ho, hsend⟩ := List.mem_filterMap.mp h
  cases o with
  | sendto name dest buf' =>
    obtain ⟨i, hi, heq⟩ := Option.map_eq_some_iff.mp hsend
    obtain ⟨rfl, rfl⟩ := Prod.mk.inj heq
    exact ⟨i, List.mem_of_find?_eq_some hi, rfl, name, dest, ho⟩
  | _ => cases hsend

end Packets

section Provenance
variable {N : Type} [DecidableEq N] {m₀ m : Mesh N} {acts : List (Act N)}

/-- In one of these steps a client of the node handed over the block. -/
def HandedAt (m₀ : Mesh N) (acts : List (Act N)) (n : N) (b : Block) : Prop :=
  ∃ before m a, MeshRun m₀ before m ∧ before ++ [a] <+: acts ∧ a.node = n ∧
    Hands (m.nodes n) a.event b

/-- Before one of these steps the block was in the table of a node with this address. -/
def HeldAt (m₀ : Mesh N) (acts : List (Act N)) (mac : EtherAddr) (b : Block) : Prop :=
  ∃ before m a, MeshRun m₀ before m ∧ before ++ [a] <+: acts ∧
    (∃ i ∈ (m.nodes a.node).interfaces, i.address = macToIpv6 mac) ∧
    ∃ d ∈ (m.nodes a.node).dataHash.entries, d.data = b

def Traced (m₀ : Mesh N) (acts : List (Act N)) (mac : EtherAddr) (b : Block) : Prop :=
  HeldAt m₀ acts mac b ∧ ∃ n, HandedAt m₀ acts n b

theorem HandedAt.append {n : N} {b : Block} (h : HandedAt m₀ acts n b) (acts' : List (Act N)) :
    HandedAt m₀ (acts ++ acts') n b := by
  obtain ⟨before, m, a, hrun, hbefore, hnode, hhands⟩ := h
  exact ⟨before, m, a, hrun, hbefore.trans (List.prefix_append _ _), hnode, hhands⟩

theorem Traced.append {mac : EtherAddr} {b : Block} (h : Traced m₀ acts mac b) (acts' : List (Act N)) :
    Traced m₀ (acts ++ acts') mac b := by
  obtain ⟨⟨before, m, a, hrun, hbefore, hheld⟩, n, hn⟩ := h
  exact ⟨⟨before, m, a, hrun, hbefore.trans (List.prefix_append _ _), hheld⟩, n, hn.append acts'⟩

/-- All that nodes hold, and all that is on the air, can be traced back. -/
structure MeshOk (m₀ : Mesh N) (acts : List (Act N)) (m : Mesh N) : Prop where
  nodes : ∀ n, Known (Traced m₀ acts) (HandedAt m₀ acts n) (m.nodes n)
  air : ∀ mac buf, (macToIpv6 mac, buf) ∈ m.air → Carries (Traced m₀ acts mac) buf

theorem meshOk_step (hrun : MeshRun m₀ acts m) (h : MeshOk m₀ acts m) {a : Act N}
    (hpossible : Possible m a) : MeshOk m₀ (acts ++ [a]) (meshStep m a) := by
  have hold : ∀ n, Known (Traced m₀ (acts ++ [a])) (HandedAt m₀ (acts ++ [a]) n) (m.nodes n) :=
    fun n => (h.nodes n).mono (fun mac b hb => hb.append [a]) fun b hb => hb.append [a]
  refine ⟨fun n => ?_, fun mac buf hbuf => ?_⟩
  · by_cases hn : n = a.node
    · subst hn
      rw [nodes_meshStep_self]
      refine known_step (hold a.node) a.event (fun name source buf mac he hmac => ?_) fun b hb => ?_
      · obtain ⟨rfl, -⟩ := ipv6ToMac_eq_some.mp hmac
        exact (h.air mac buf (hpossible name _ buf he)).mono fun b hb => hb.append [a]
      · exact ⟨acts, m, a, hrun, List.prefix_refl _, rfl, hb⟩
    · rw [nodes_meshStep_of_ne m a hn]
      exact hold n
  · rcases List.mem_append.mp hbuf with hbuf | hbuf
    · exact (h.air mac buf hbuf).mono fun b hb => hb.append [a]
    · obtain ⟨i, hi, haddress, name, dest, hsend⟩ := mem_emitted hbuf
      refine (sent_step hsend).carries fun d hd => ?_
      refine ⟨⟨acts, m, a, hrun, List.prefix_refl _, ⟨i, hi, haddress⟩, d, hd, rfl⟩, ?_⟩
      rcases (hold a.node).data _ d ((Table.mem_entries _).mp hd) with ⟨-, hown⟩ | ⟨mac', -, -, htraced⟩
      · exact ⟨a.node, hown⟩
      · exact htraced

theorem meshOk_run {options : N → Options} {start : Timespec}
    (hrun : MeshRun (meshInit options start) acts m) : MeshOk (meshInit options start) acts m := by
  induction hrun with
  | nil =>
    refine ⟨fun n => ⟨fun k d hd => ?_, fun k head hhead => ?_⟩, fun mac buf hbuf => ?_⟩
    · cases hd
    · cases hhead
    · cases hbuf
  | snoc hrun hpossible ih => exact meshOk_step hrun ih hpossible

variable {options : N → Options} {start : Timespec} {n : N} {k : DataKey} {d : Dataset}

/-- Whatever node a data set is found at, a client has handed it over, word for word, to some node
that accepted it; and what a node takes for local was handed over there. -/
theorem data_from_clients (hrun : MeshRun (meshInit options start) acts m)
    (hfind : (m.nodes n).dataHash.find k = some d) :
    ∃ n', HandedAt (meshInit options start) acts n' d.data ∧ (d.dataSource = .sourceLocal → n' = n) := by
  rcases ((meshOk_run hrun).nodes n).data k d hfind with ⟨-, hown⟩ | ⟨mac, hsource, -, n', htraced⟩
  · exact ⟨n, hown, fun _ => rfl⟩
  · refine ⟨n', htraced, fun hlocal => ?_⟩
    rw [hlocal, sourceFrom] at hsource
    split_ifs at hsource

/-- What a node takes for first-hand was held by a node with the address that it names. -/
theorem firstHand_from_source (hrun : MeshRun (meshInit options start) acts m)
    (hfind : (m.nodes n).dataHash.find k = some d) (hfirst : d.dataSource = .sourceFirstHand) :
    HeldAt (meshInit options start) acts d.data.source d.data := by
  rcases ((meshOk_run hrun).nodes n).data k d hfind with ⟨hlocal, -⟩ | ⟨mac, hsource, hheld, -⟩
  · rw [hfirst] at hlocal
    cases hlocal
  · rw [hfirst, sourceFrom] at hsource
    split_ifs at hsource with hmac
    exact hmac ▸ hheld

end Provenance

section Sample

/-- Two masters, and a client at the first one. -/
def sampleMesh : Mesh Bool := meshInit (fun _ => ⟨.master, [97], [98], none⟩) ⟨0, 0⟩

def sampleOctet : Bool → UInt8
  | false => 1
  | true => 2

def sampleAddress (n : Bool) : EtherAddr := ⟨2, 0, 0, 0, 0, sampleOctet n⟩

def sampleOpen (n : Bool) : Act Bool :=
  ⟨n, sampleEnv, .reopen (fun _ => some (sampleAddress n, 3)) fun _ => true⟩

def sampleBlockOf : Block := { sampleBlock with source := sampleAddress false }

def sampleClient : Act Bool :=
  ⟨false, sampleEnv, .client 4 (pushPacket 5 0 { sampleBlockOf with source := ⟨0, 0, 0, 0, 0, 0⟩ }.bytes)⟩

def sampleRound (n : Bool) : Act Bool := ⟨n, sampleEnv, .round fun _ => false⟩

/-- A packet from the other node. -/
def sampleRecv (n : Bool) (buf : Bytes) : Act Bool :=
  ⟨n, sampleEnv, .recv [97] (macToIpv6 (sampleAddress !n)) buf⟩

def sampleActs : List (Act Bool) :=
  [sampleOpen false, sampleOpen true, sampleClient, sampleRound true,
    sampleRecv false (packet alfredAnnounceMaster []), sampleRound false,
    sampleRecv true (pushPacket 0 0 sampleBlockOf.bytes),
    sampleRecv true (statusPacket alfredStatusTxend 0 1)]

theorem sampleActs_run : MeshRun sampleMesh sampleActs (sampleActs.foldl meshStep sampleMesh) := by
  have hquiet : ∀ (m : Mesh Bool) a, (∀ name source buf, a.event ≠ .recv name source buf) →
      Possible m a := fun m a h name source buf he => absurd he (h name source buf)
  have hrecv : ∀ (m : Mesh Bool) n buf, (macToIpv6 (sampleAddress !n), buf) ∈ m.air →
      Possible m (sampleRecv n buf) := by
    intro m n buf h name source buf' he
    cases he
    exact h
  refine MeshRun.nil.append ⟨?_, ?_, ?_, ?_, ?_, ?_, ?_, ?_, trivial⟩
  · exact hquiet _ _ fun _ _ _ => by simp [sampleOpen]
  · exact hquiet _ _ fun _ _ _ => by simp [sampleOpen]
  · exact hquiet _ _ fun _ _ _ => by simp [sampleClient]
  · exact hquiet _ _ fun _ _ _ => by simp [sampleRound]
  · exact hrecv _ _ _ (by decide)
  · exact hquiet _ _ fun _ _ _ => by simp [sampleRound]
  · exact hrecv _ _ _ (by decide)
  · exact hrecv _ _ _ (by decide)

theorem data_from_clients_sample : ∃ n', HandedAt sampleMesh sampleActs n' sampleBlockOf ∧
    (DataSource.sourceFirstHand = .sourceLocal → n' = true) :=
  data_from_clients (d := ⟨sampleBlockOf, ⟨0, 0⟩, .sourceFirstHand⟩) (k := blockKey sampleBlockOf)
    sampleActs_run (by decide)

theorem firstHand_from_source_sample :
    HeldAt sampleMesh sampleActs (sampleAddress false) sampleBlockOf :=
  firstHand_from_source (d := ⟨sampleBlockOf, ⟨0, 0⟩, .sourceFirstHand⟩) (n := true)
    (k := blockKey sampleBlockOf) sampleActs_run (by decide) rfl

end Sample

end NexFi.AlfredMesh
