import NexFi.AlfredSync

/-!
# The interfaces and the best server

The best server is a pointer into the table of an interface, and servers and whole
interfaces go away. No state that a node can be in holds a pointer to a server
that is gone, and as long as the node is a slave it is one of the best servers
that the node has heard of.
-/

namespace NexFi.AlfredServer
open AlfredPacket AlfredData ChainTable

section Best

/-- Nothing yet, or the first of the greatest ones. -/
def BestOf (ss : List (ServerRef × Server)) (best : Option ServerRef × ℤ) : Prop :=
  (best = (none, -1) ∧ ss = []) ∨ ∃ r s, best = (some r, (s.tq.toNat : ℤ)) ∧ (r, s) ∈ ss ∧
    ∀ p ∈ ss, p.2.tq.toNat ≤ s.tq.toNat

theorem bestOf_better {ss : List (ServerRef × Server)} {best : Option ServerRef × ℤ}
    (h : BestOf ss best) (p : ServerRef × Server) : BestOf (ss ++ [p]) (better best p) := by
  rcases h with ⟨rfl, rfl⟩ | ⟨r, s, rfl, hmem, hmax⟩
  · have hlt : (-1 : ℤ) < p.2.tq.toNat := by omega
    refine .inr ⟨p.1, p.2, by rw [better, if_pos hlt], by simp, ?_⟩
    simp
  · by_cases hlt : s.tq.toNat < p.2.tq.toNat
    · refine .inr ⟨p.1, p.2, by rw [better, if_pos (Int.ofNat_lt.mpr hlt)], by simp, ?_⟩
      intro q hq
      rcases List.mem_append.mp hq with hq | hq
      · exact (hmax q hq).trans hlt.le
      · rw [List.mem_singleton.mp hq]
    · refine .inr ⟨r, s, by rw [better, if_neg (mt Int.ofNat_lt.mp hlt)],
        List.mem_append_left _ hmem, ?_⟩
      intro q hq
      rcases List.mem_append.mp hq with hq | hq
      · exact hmax q hq
      · rw [List.mem_singleton.mp hq]
        exact Nat.le_of_not_lt hlt

theorem bestOf_foldl (ss' : List (ServerRef × Server)) {ss : List (ServerRef × Server)}
    {best : Option ServerRef × ℤ} (h : BestOf ss best) : BestOf (ss ++ ss') (ss'.foldl better best) := by
  induction ss' generalizing ss best with
  | nil => rwa [List.append_nil]
  | cons p ss' ih =>
    rw [List.append_cons]
    exact ih (bestOf_better h p)

/-- The best server is one of the best, and there is one as soon as there are servers. -/
structure Best (g : Globals) : Prop where
  none : g.bestServer = none → servers g = []
  some : ∀ r, g.bestServer = some r → ∃ s, (r, s) ∈ servers g ∧
    ∀ p ∈ servers g, p.2.tq.toNat ≤ s.tq.toNat

theorem best_setBestServer (g : Globals) : Best (setBestServer g) := by
  have hservers : servers (setBestServer g) = servers g := rfl
  have hbest : (setBestServer g).bestServer = ((servers g).foldl better (none, -1)).1 := rfl
  have h := bestOf_foldl (servers g) (.inl ⟨rfl, rfl⟩)
  rw [List.nil_append] at h
  rcases h with ⟨heq, hnil⟩ | ⟨r, s, heq, hmem, hmax⟩
  · rw [heq] at hbest
    refine ⟨fun _ => hservers.trans hnil, fun r hr => ?_⟩
    rw [hbest] at hr
    cases hr
  · rw [heq] at hbest
    refine ⟨fun hnone => ?_, fun r' hr' => ?_⟩
    · rw [hbest] at hnone
      cases hnone
    · rw [hbest] at hr'
      cases hr'
      exact ⟨s, hmem, hmax⟩

end Best

section Servers
variable {g : Globals}

theorem mem_servers {p : ServerRef × Server} : p ∈ servers g ↔
    ∃ i ∈ g.interfaces, i.serverHash.find p.2.hwaddr = some p.2 ∧ p.1 = ⟨i.name, p.2.hwaddr⟩ := by
  rw [servers, List.mem_flatMap]
  refine exists_congr fun i => and_congr_right fun _ => ?_
  rw [List.mem_map]
  constructor
  · rintro ⟨s, hs, rfl⟩
    exact ⟨(Table.mem_entries _).mp hs, rfl⟩
  · rintro ⟨hs, hr⟩
    exact ⟨p.2, (Table.mem_entries _).mpr hs, by rw [← hr]⟩

/-- With names of their own the interfaces tell what a reference is to. -/
theorem deref_eq_some (hnames : (g.interfaces.map Interface.name).Nodup) {r : ServerRef} {s : Server} :
    deref g r = some s ↔ (r, s) ∈ servers g := by
  rw [mem_servers, deref, Option.bind_eq_some_iff]
  constructor
  · rintro ⟨i, hi, hs⟩
    have hname : i.name = r.interface := by simpa using List.find?_some hi
    have hkey : s.hwaddr = r.hwaddr := Table.find_key _ hs
    exact ⟨i, List.mem_of_find?_eq_some hi, by rwa [hkey], by rw [hname, hkey]⟩
  · rintro ⟨i, hi, hs, hr⟩
    dsimp only at hs hr
    subst hr
    exact ⟨i, findKey_of_mem hnames hi, hs⟩

/-- What the state says about the interfaces. -/
structure NetworkOk (g : Globals) : Prop where
  names : (g.interfaces.map Interface.name).Nodup
  live : ∀ r, g.bestServer = some r → ∃ s, (r, s) ∈ servers g

theorem NetworkOk.of_best (hnames : (g.interfaces.map Interface.name).Nodup) (h : Best g) :
    NetworkOk g := by
  refine ⟨hnames, fun r hr => ?_⟩
  obtain ⟨s, hs, -⟩ := h.some r hr
  exact ⟨s, hs⟩

theorem servers_map {f : Interface → Interface}
    (hf : ∀ i, (f i).name = i.name ∧ (f i).serverHash = i.serverHash) :
    servers { g with interfaces := g.interfaces.map f } = servers g := by
  rw [servers, servers, List.flatMap_map]
  congr 1
  funext i
  rw [(hf i).1, (hf i).2]

theorem names_map {f : Interface → Interface} (hf : ∀ i, (f i).name = i.name) :
    (g.interfaces.map f).map Interface.name = g.interfaces.map Interface.name := by
  rw [List.map_map]
  exact List.map_congr_left fun i _ => hf i

/-- A server stays one when another one is heard of. -/
theorem mem_servers_heard (env : Env) (g' : Globals) (name : Bytes) (source : In6Addr)
    (mac : EtherAddr) {r : ServerRef} {s : Server} (h : (r, s) ∈ servers g) :
    ∃ s', (r, s') ∈ servers (onInterface g name (hearServer env g' source mac)) := by
  obtain ⟨i, hi, hs, hr⟩ := mem_servers.mp h
  dsimp only at hs hr
  by_cases hname : i.name = name
  · have hmem : hearServer env g' source mac i ∈
        (onInterface g name (hearServer env g' source mac)).interfaces := by
      refine List.mem_map.mpr ⟨i, hi, ?_⟩
      rw [if_pos hname]
    have hfind : (hearServer env g' source mac i).serverHash.find s.hwaddr = _ :=
      i.serverHash.find_put (heard env g' source mac (i.serverHash.find mac)) s.hwaddr
    by_cases hkey : serverHashing.key (heard env g' source mac (i.serverHash.find mac)) = s.hwaddr
    · rw [if_pos hkey, ← hkey] at hfind
      rw [← hkey] at hr
      exact ⟨_, mem_servers.mpr ⟨_, hmem, hfind, hr⟩⟩
    · rw [if_neg hkey, hs] at hfind
      exact ⟨s, mem_servers.mpr ⟨_, hmem, hfind, hr⟩⟩
  · have hmem : i ∈ (onInterface g name (hearServer env g' source mac)).interfaces := by
      refine List.mem_map.mpr ⟨i, hi, ?_⟩
      rw [if_neg hname]
    exact ⟨s, mem_servers.mpr ⟨i, hmem, hs, hr⟩⟩

/-- A server is known under the hardware address that its address is made of. -/
def AddressesOk (g : Globals) : Prop := ∀ p ∈ servers g, ipv6ToMac p.2.address = some p.2.hwaddr

theorem AddressesOk.congr {g' : Globals} (h : AddressesOk g) (hservers : servers g' = servers g) :
    AddressesOk g' := by
  intro p hp
  rw [hservers] at hp
  exact h p hp

theorem addressesOk_heard (env : Env) (g' : Globals) (name : Bytes) {source : In6Addr}
    {mac : EtherAddr} (hmac : ipv6ToMac source = some mac) (h : AddressesOk g) :
    AddressesOk (onInterface g name (hearServer env g' source mac)) := by
  rintro ⟨r, s⟩ hp
  obtain ⟨i', hi', hs, hr⟩ := mem_servers.mp hp
  obtain ⟨i, hi, rfl⟩ := List.mem_map.mp hi'
  dsimp only at hs hr ⊢
  by_cases hname : i.name = name
  · rw [if_pos hname, hearServer, Table.find_put] at hs
    split_ifs at hs
    · rw [← Option.some_inj.mp hs]
      unfold heard
      cases hknown : i.serverHash.find mac with
      | none => exact hmac
      | some known =>
        have hkey : known.hwaddr = mac := Table.find_key _ hknown
        exact h (⟨i.name, known.hwaddr⟩, known) (mem_servers.mpr ⟨i, hi, by rwa [hkey], rfl⟩)
    · exact h (⟨i.name, s.hwaddr⟩, s) (mem_servers.mpr ⟨i, hi, hs, rfl⟩)
  · rw [if_neg hname] at hs
    exact h (⟨i.name, s.hwaddr⟩, s) (mem_servers.mpr ⟨i, hi, hs, rfl⟩)

/-- The interfaces without the servers that are stale. -/
def dropServers (now : Timespec) (g : Globals) : Globals :=
  { g with interfaces := g.interfaces.map fun i => { i with
      serverHash := i.serverHash.filter fun s => !expired now s.lastSeen alfredServerTimeout } }

theorem servers_dropServers (now : Timespec) (g : Globals) : servers (dropServers now g) =
    (servers g).filter fun p => !expired now p.2.lastSeen alfredServerTimeout := by
  rw [servers, servers, dropServers, List.flatMap_map, List.filter_flatMap]
  congr 1
  funext i
  simp only [Table.entries_filter, List.filter_map]
  rfl

/-- The best server is kept when it is not stale, and chosen anew when it is. -/
theorem purgeServers_cases (now : Timespec) (g : Globals) :
    (purgeServers now g = dropServers now g ∧ ∃ r, g.bestServer = some r ∧
        ∀ s, (r, s) ∈ servers g → expired now s.lastSeen alfredServerTimeout = false) ∨
      purgeServers now g = setBestServer (dropServers now g) := by
  have hset : ∀ best, setBestServer { dropServers now g with bestServer := best } =
      setBestServer (dropServers now g) := fun _ => rfl
  cases hbest : g.bestServer with
  | none =>
    right
    rw [purgeServers]
    simp only [hbest, ite_self]
    exact hset none
  | some r =>
    by_cases hgone : ((servers g).filter fun p => expired now p.2.lastSeen alfredServerTimeout).any
        fun p => some r = some p.1
    · right
      rw [purgeServers]
      simp only [hbest, hgone, if_true]
      exact hset none
    · left
      refine ⟨?_, r, rfl, fun s hs => ?_⟩
      · rw [purgeServers]
        simp only [hbest, hgone, Bool.false_eq_true, if_false, reduceCtorEq]
        rw [dropServers, hbest]
      · rw [Bool.not_eq_true, List.any_eq_false] at hgone
        by_contra hstale
        rw [Bool.not_eq_false] at hstale
        exact hgone (r, s) (List.mem_filter.mpr ⟨hs, hstale⟩) (by simp)

end Servers

section Step

def names (g : Globals) : List Bytes := g.interfaces.map Interface.name

inductive NetChange (env : Env) (g g' : Globals) : Prop
  | quiet (hservers : servers g' = servers g) (hnames : names g' = names g)
      (hbest : g'.bestServer = g.bestServer)
  | heard (hmode : g.opmode ≠ .slave)
      (hservers : ∀ r s, (r, s) ∈ servers g → ∃ s', (r, s') ∈ servers g')
      (hnames : names g' = names g) (hbest : g'.bestServer = g.bestServer)
      (haddresses : AddressesOk g → AddressesOk g')
  | chosen (hnames : names g' = names g) (hbest : Best g')
      (haddresses : AddressesOk g → AddressesOk g')
  | dropped {r : ServerRef} (hservers : servers g' = (servers g).filter fun p =>
        !expired env.now p.2.lastSeen alfredServerTimeout) (hnames : names g' = names g)
      (hbest : g'.bestServer = some r) (hold : g.bestServer = some r)
      (hfresh : ∀ s, (r, s) ∈ servers g → expired env.now s.lastSeen alfredServerTimeout = false)
  | replaced (hservers : servers g' = []) (hnames : (names g').Nodup) (hbest : g'.bestServer = none)

variable {env : Env} {g g' g'' : Globals}

theorem Best.congr (h : Best g) (hservers : servers g' = servers g)
    (hbest : g'.bestServer = g.bestServer) : Best g' := by
  refine ⟨fun hnone => ?_, fun r hr => ?_⟩
  · rw [hservers]
    exact h.none (hbest ▸ hnone)
  · rw [hservers]
    exact h.some r (hbest ▸ hr)

/-- A change of something else before. -/
theorem NetChange.after (h : SameNetwork g g') (h' : NetChange env g' g'') : NetChange env g g'' := by
  have hservers : servers g' = servers g := by rw [servers, h.interfaces, servers]
  have hnames : names g' = names g := by rw [names, h.interfaces, names]
  cases h' with
  | quiet hs hn hb => exact .quiet (hs.trans hservers) (hn.trans hnames) (hb.trans h.bestServer)
  | heard hm hs hn hb ha =>
    rw [h.opmode] at hm
    rw [hservers] at hs
    exact .heard hm hs (hn.trans hnames) (hb.trans h.bestServer) fun hg => ha (hg.congr hservers)
  | chosen hn hb ha => exact .chosen (hn.trans hnames) hb fun hg => ha (hg.congr hservers)
  | dropped hs hn hb ho hf =>
    rw [hservers] at hs hf
    exact .dropped hs (hn.trans hnames) hb (h.bestServer ▸ ho) hf
  | replaced hs hn hb => exact .replaced hs hn hb

/-- A change of something else behind. -/
theorem NetChange.before (h : NetChange env g g') (hservers : servers g'' = servers g')
    (hnames : names g'' = names g') (hbest : g''.bestServer = g'.bestServer) :
    NetChange env g g'' := by
  cases h with
  | quiet hs hn hb => exact .quiet (hservers.trans hs) (hnames.trans hn) (hbest.trans hb)
  | heard hm hs hn hb ha =>
    rw [← hservers] at hs
    exact .heard hm hs (hnames.trans hn) (hbest.trans hb) fun hg => (ha hg).congr hservers
  | chosen hn hb ha =>
    exact .chosen (hnames.trans hn) (hb.congr hservers hbest) fun hg => (ha hg).congr hservers
  | dropped hs hn hb ho hf => exact .dropped (hservers.trans hs) (hnames.trans hn) (hbest.trans hb) ho hf
  | replaced hs hn hb => exact .replaced (hservers.trans hs) (hnames ▸ hn) (hbest.trans hb)

theorem SameNetwork.quiet (h : SameNetwork g g') : NetChange env g g' :=
  .quiet (by rw [servers, h.interfaces, servers]) (by rw [names, h.interfaces, names]) h.bestServer

theorem names_onInterface (name : Bytes) (source : In6Addr) (mac : EtherAddr) :
    names (onInterface g name (hearServer env g source mac)) = names g := by
  refine names_map fun i => ?_
  split_ifs <;> rfl

/-- No two interfaces have the same name. -/
theorem nodup_addInterface (ts : List Bytes) (interfaces : List Interface)
    (h : (interfaces.map Interface.name).Nodup ∧ ∀ i ∈ interfaces, i.serverHash.entries = []) :
    ((ts.foldl addInterface interfaces).map Interface.name).Nodup ∧
      ∀ i ∈ ts.foldl addInterface interfaces, i.serverHash.entries = [] := by
  induction ts generalizing interfaces with
  | nil => exact h
  | cons t ts ih =>
    refine ih _ ?_
    by_cases hthere : interfaces.any fun i => i.name = t
    · rwa [addInterface, if_pos hthere]
    · rw [addInterface, if_neg hthere, List.map_cons, List.nodup_cons, List.forall_mem_cons]
      refine ⟨⟨?_, h.1⟩, ?_, h.2⟩
      · intro hmem
        obtain ⟨i, hi, hname⟩ := List.mem_map.mp hmem
        exact hthere (List.any_eq_true.mpr ⟨i, hi, decide_eq_true hname⟩)
      · simp [newInterface, Table.entries, Table.empty]

theorem setInterfaces_network (ifaces : Bytes) : NetChange env g (setInterfaces g ifaces) := by
  have h := nodup_addInterface (tokens ifaces) []
    ⟨List.nodup_nil, fun _ hi => absurd hi List.not_mem_nil⟩
  refine .replaced ?_ h.1 rfl
  rw [servers, List.flatMap_eq_nil_iff]
  intro i hi
  rw [h.2 i hi, List.map_nil]

theorem unixSockRead_network (sock : ℕ) (buf : Bytes) :
    NetChange env g (unixSockRead env g sock buf).1 := by
  refine unixSockRead_cases (motive := fun r => NetChange env g r.1) env g sock buf
    (SameNetwork.refl g).quiet (fun header body _ _ _ => ?_) (fun header body _ _ _ => ?_)
    (fun header body => ?_) fun header body => ?_
  · exact (onlyTables_unixSockAddData env header body).sameNetwork.quiet
  · exact (onlyTables_unixSockReqData env sock header body).sameNetwork.quiet
  · refine .quiet ?_ ?_ ?_ <;> unfold unixSockModesw <;> cases body <;> simp only <;>
      split_ifs <;> rfl
  · simp only [unixSockChangeIface]
    split_ifs
    · exact (SameNetwork.refl g).quiet
    · exact (SameNetwork.refl g).quiet
    · exact setInterfaces_network _

theorem recv_network (name : Bytes) (source : In6Addr) (buf : Bytes) :
    NetChange env g (step env g (.recv name source buf)).1 := by
  simp only [step]
  cases g.interfaces.find? fun i => i.name = name with
  | none => exact (SameNetwork.refl g).quiet
  | some i =>
    rcases recvAlfredPacket_network env g i source buf with h | ⟨header, h⟩
    · exact h.quiet
    · simp only [h]
      rcases processAlfredAnnounceMaster_cases env g i.name source header with heq | ⟨mac, hmac, heq⟩
      · rw [heq]
        exact (SameNetwork.refl g).quiet
      · rw [heq]
        by_cases hmode : g.opmode = .slave
        · rw [if_pos hmode]
          exact .chosen (names_onInterface i.name source mac) (best_setBestServer _) fun hg =>
            (addressesOk_heard env g i.name hmac hg).congr rfl
        · rw [if_neg hmode]
          exact .heard hmode (fun r s hs => mem_servers_heard env g i.name source mac hs)
            (names_onInterface i.name source mac) rfl (addressesOk_heard env g i.name hmac)

theorem closeSockets_same (g : Globals) (lost : Bytes → Bool) :
    servers (closeSockets g lost) = servers g ∧ names (closeSockets g lost) = names g := by
  have hf : ∀ i : Interface, (if lost i.name then { i with netsock := false } else i).name = i.name ∧
      (if lost i.name then { i with netsock := false } else i).serverHash = i.serverHash := by
    intro i
    split_ifs <;> exact ⟨rfl, rfl⟩
  exact ⟨servers_map hf, names_map fun i => (hf i).1⟩

theorem checkIfSockets_same (env : Env) (g : Globals) (lost : Bytes → Bool) :
    servers (checkIfSockets env g lost) = servers g ∧ names (checkIfSockets env g lost) = names g ∧
      (checkIfSockets env g lost).bestServer = g.bestServer := by
  unfold checkIfSockets
  split_ifs
  · exact ⟨rfl, rfl, rfl⟩
  · obtain ⟨hservers, hnames⟩ := closeSockets_same { g with ifCheck := env.now } lost
    exact ⟨hservers, hnames, rfl⟩

theorem reopen_network (device : Bytes → Option (EtherAddr × UInt32)) (bound : Bytes → Bool) :
    NetChange env g (reopen g device bound) := by
  refine .quiet (servers_map fun i => ?_) (names_map fun i => ?_) rfl
  · split_ifs
    · exact ⟨rfl, rfl⟩
    · cases device i.name <;> exact ⟨rfl, rfl⟩
  · split_ifs
    · rfl
    · cases device i.name <;> rfl

theorem names_dropServers (now : Timespec) : names (dropServers now g) = names g :=
  names_map fun _ => rfl

theorem purgeServers_network : NetChange env g (purgeServers env.now g) := by
  rcases purgeServers_cases env.now g with ⟨heq, r, hold, hfresh⟩ | heq
  · rw [heq]
    exact .dropped (servers_dropServers env.now g) (names_dropServers env.now) hold hold hfresh
  · rw [heq]
    refine .chosen (names_dropServers env.now) (best_setBestServer _) fun hg p hp => ?_
    have hkept : p ∈ servers (dropServers env.now g) := hp
    rw [servers_dropServers] at hkept
    exact hg p (List.mem_of_mem_filter hkept)

theorem sameNetwork_purgeDatasets (now : Timespec) : SameNetwork g (purgeDatasets now g) := by
  obtain ⟨hmode, hinterfaces, hbest⟩ := sameNetwork_foldl
    (fun g (d : Dataset) => sameNetwork_changedDataType g d.data.type)
    (g.dataHash.entries.filter fun d => expired now d.lastSeen alfredDataTimeout) g
  exact ⟨hmode, hinterfaces, hbest⟩

theorem sameNetwork_executeUpdateCommand : SameNetwork g (executeUpdateCommand g).1 := by
  unfold executeUpdateCommand
  cases g.updateCommand with
  | none => exact .refl g
  | some command =>
    simp only
    split_ifs <;> exact ⟨rfl, rfl, rfl⟩

theorem serverRound_network (lost : Bytes → Bool) : NetChange env g (serverRound env g lost).1 := by
  have hpurge : NetChange env g (purgeData env g).1 :=
    (NetChange.after (sameNetwork_purgeDatasets env.now) purgeServers_network).before rfl rfl rfl
  obtain ⟨hservers, hnames, hbest⟩ := checkIfSockets_same env (purgeData env g).1 lost
  have hexecute := sameNetwork_executeUpdateCommand (g := checkIfSockets env (purgeData env g).1 lost)
  refine (hpurge.before hservers hnames hbest).before ?_ ?_ hexecute.bestServer
  · exact congrArg (List.flatMap _) hexecute.interfaces
  · exact congrArg (List.map Interface.name) hexecute.interfaces

theorem step_network (e : Event) : NetChange env g (step env g e).1 := by
  cases e with
  | recv name source buf => exact recv_network name source buf
  | client sock buf => exact unixSockRead_network sock buf
  | reopen device bound => exact reopen_network device bound
  | error lost =>
    obtain ⟨hservers, hnames⟩ := closeSockets_same g lost
    exact .quiet hservers hnames rfl
  | round lost => exact serverRound_network lost

theorem networkOk_step (x : Env × Event) (h : NetworkOk g) : NetworkOk (stepTo g x) := by
  have hchange : NetChange x.1 g (stepTo g x) := step_network x.2
  cases hchange with
  | quiet hservers hnames hbest =>
    refine ⟨by rw [← names, hnames]; exact h.names, fun r hr => ?_⟩
    rw [hservers]
    exact h.live r (hbest ▸ hr)
  | heard hmode hservers hnames hbest haddresses =>
    refine ⟨by rw [← names, hnames]; exact h.names, fun r hr => ?_⟩
    obtain ⟨s, hs⟩ := h.live r (hbest ▸ hr)
    exact hservers r s hs
  | chosen hnames hbest haddresses => exact .of_best (by rw [← names, hnames]; exact h.names) hbest
  | @dropped r hservers hnames hbest hold hfresh =>
    refine ⟨by rw [← names, hnames]; exact h.names, fun r' hr' => ?_⟩
    rw [hbest, Option.some_inj] at hr'
    subst hr'
    obtain ⟨s, hs⟩ := h.live r hold
    refine ⟨s, ?_⟩
    rw [hservers]
    exact List.mem_filter.mpr ⟨hs, by rw [hfresh s hs]; rfl⟩
  | replaced hservers hnames hbest =>
    refine ⟨hnames, fun r hr => ?_⟩
    rw [hbest] at hr
    cases hr

theorem addressesOk_step (x : Env × Event) (h : AddressesOk g) : AddressesOk (stepTo g x) := by
  have hchange : NetChange x.1 g (stepTo g x) := step_network x.2
  cases hchange with
  | quiet hservers hnames hbest => exact h.congr hservers
  | heard hmode hservers hnames hbest haddresses => exact haddresses h
  | chosen hnames hbest haddresses => exact haddresses h
  | dropped hservers hnames hbest hold hfresh =>
    intro p hp
    rw [hservers] at hp
    exact h p (List.mem_of_mem_filter hp)
  | replaced hservers hnames hbest =>
    intro p hp
    rw [hservers] at hp
    cases hp

theorem best_step (x : Env × Event) (hslave : g.opmode = .slave) (h : Best g) : Best (stepTo g x) := by
  have hchange : NetChange x.1 g (stepTo g x) := step_network x.2
  cases hchange with
  | quiet hservers hnames hbest => exact h.congr hservers hbest
  | heard hmode hservers hnames hbest haddresses => exact absurd hslave hmode
  | chosen hnames hbest haddresses => exact hbest
  | @dropped r hservers hnames hbest hold hfresh =>
    refine ⟨fun hnone => ?_, fun r' hr' => ?_⟩
    · rw [hbest] at hnone
      cases hnone
    · rw [hbest, Option.some_inj] at hr'
      subst hr'
      obtain ⟨s, hs, hmax⟩ := h.some r hold
      rw [hservers]
      refine ⟨s, List.mem_filter.mpr ⟨hs, by rw [hfresh s hs]; rfl⟩, fun p hp => ?_⟩
      exact hmax p (List.mem_of_mem_filter hp)
  | replaced hservers hnames hbest =>
    refine ⟨fun _ => hservers, fun r hr => ?_⟩
    rw [hbest] at hr
    cases hr

theorem networkOk_globalsInit (options : Options) (start : Timespec) :
    NetworkOk (globalsInit options start) := by
  have h := nodup_addInterface (tokens options.interfaces) []
    ⟨List.nodup_nil, fun _ hi => absurd hi List.not_mem_nil⟩
  exact ⟨h.1, fun r hr => by cases hr⟩

theorem servers_globalsInit (options : Options) (start : Timespec) :
    servers (globalsInit options start) = [] := by
  have h := nodup_addInterface (tokens options.interfaces) []
    ⟨List.nodup_nil, fun _ hi => absurd hi List.not_mem_nil⟩
  rw [servers, List.flatMap_eq_nil_iff]
  intro i hi
  rw [h.2 i hi, List.map_nil]

theorem Reached.networkOk (h : Reached g) : NetworkOk g := by
  obtain ⟨options, start, xs, rfl⟩ := h
  exact run_induction (Q := fun _ => True) (fun g x hg _ => networkOk_step x hg) (fun _ _ => trivial)
    (networkOk_globalsInit options start)

theorem Reached.addressesOk (h : Reached g) : AddressesOk g := by
  obtain ⟨options, start, xs, rfl⟩ := h
  refine run_induction (Q := fun _ => True) (fun g x hg _ => addressesOk_step x hg)
    (fun _ _ => trivial) fun p hp => ?_
  rw [servers_globalsInit] at hp
  cases hp

/-- In every state that a node can be in the best server is one that it still knows. -/
theorem bestServer_live (h : Reached g) {r : ServerRef} (hr : g.bestServer = some r) :
    ∃ s, deref g r = some s := by
  obtain ⟨s, hs⟩ := h.networkOk.live r hr
  exact ⟨s, (deref_eq_some h.networkOk.names).mpr hs⟩

/-- As long as the node has been a slave, it has a best server when it knows any, and none that it
knows is better. -/
theorem bestServer_best {options : Options} {start : Timespec} {xs : List (Env × Event)}
    (hslave : ∀ earlier, earlier <+: xs → (run (globalsInit options start) earlier).opmode = .slave) :
    Best (run (globalsInit options start) xs) := by
  induction xs using List.reverseRecOn with
  | nil =>
    exact ⟨fun _ => servers_globalsInit options start, fun r hr => by cases hr⟩
  | append_singleton xs x ih =>
    rw [run_append]
    refine best_step x (hslave xs (List.prefix_append xs [x])) (ih fun earlier hearlier => ?_)
    exact hslave earlier (hearlier.trans (List.prefix_append xs [x]))

end Step

section Sample

/-- A slave that has heard of one server. -/
def sampleEvents : List (Env × Event) :=
  [(sampleEnv, .reopen (fun _ => some (⟨2, 0, 0, 0, 0, 9⟩, 3)) fun _ => true),
    (sampleEnv, .recv [97] (macToIpv6 sampleMac) (packet alfredAnnounceMaster []))]

theorem bestServer_live_sample :
    ∃ s, deref (run (globalsInit ⟨.slave, [97], [98], none⟩ ⟨0, 0⟩) sampleEvents) ⟨[97], sampleMac⟩ =
      some s :=
  bestServer_live ⟨_, _, _, rfl⟩ rfl

theorem bestServer_best_sample :
    Best (run (globalsInit ⟨.slave, [97], [98], none⟩ ⟨0, 0⟩) sampleEvents) := by
  refine bestServer_best fun earlier hearlier => ?_
  have hmem : earlier ∈ sampleEvents.inits := (List.mem_inits _ _).mpr hearlier
  simp only [sampleEvents, List.inits, List.map_cons, List.map_nil, List.mem_cons,
    List.not_mem_nil, or_false] at hmem
  rcases hmem with rfl | rfl | rfl <;> rfl

end Sample

end NexFi.AlfredServer
