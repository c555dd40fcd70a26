import NexFi.AlfredSync

/-!
# What the tables of a node hold

Whatever arrives is read into a buffer of a fixed size, so a data set always fits
into a packet and a push leaves none out. What clients handed over is theirs. And
what others change is passed on to the update command.
-/

namespace NexFi.AlfredServer
open AlfredPacket AlfredData ChainTable

section Sizes

/-- What the receive buffer holds. -/
def Readable : Event → Prop
  | .recv _ _ buf => buf.length ≤ maxPayload
  | .client _ buf => buf.length ≤ maxPayload
  | _ => True

structure Sendable (g : Globals) : Prop where
  data : ∀ k d, g.dataHash.find k = some d → Fits d.data
  packets : ∀ k head, heads g k = some head → ∀ p ∈ head.packetList, p.data.length ≤ room

theorem size_le_of_mem_blocksOf {bytes : Bytes} {b : Block} (h : b ∈ blocksOf bytes) :
    b.size ≤ bytes.length := by
  have hprefix := (flatMap_takeBlocks bytes.length bytes).length_le
  have hb : b.bytes.length ≤ ((blocksOf bytes).flatMap Block.bytes).length := by
    rw [List.flatMap_def]
    exact (List.sublist_flatten_of_mem (List.mem_map_of_mem h)).length_le
  rw [Block.length_bytes] at hb
  exact hb.trans hprefix

theorem length_takeTlv {buf body : Bytes} {header : Tlv} (h : takeTlv buf = some (header, body)) :
    buf.length = body.length + 4 := by
  rw [takeTlv_eq_some h, List.length_append]
  simp only [Tlv.bytes, htons, List.length_cons, List.length_nil]
  omega

theorem length_takeTx {body rest : Bytes} {tx : UInt16 × UInt16} (h : takeTx body = some (tx, rest)) :
    body.length = rest.length + 4 := by
  match body, h with
  | _ :: _ :: _ :: _ :: tail, h =>
    simp only [takeTx, Option.some.injEq, Prod.mk.injEq] at h
    rw [← h.2]
    rfl

theorem ReadsPush.length_le {buf data : Bytes} {id seqno : UInt16} (h : ReadsPush buf id seqno data)
    (hbuf : buf.length ≤ maxPayload) : data.length ≤ room := by
  obtain ⟨header, body, htlv, -, -, htx⟩ := h
  have hbody := length_takeTlv htlv
  have hdata := length_takeTx htx
  rw [List.length_take] at hdata
  unfold room
  omega

theorem ReadsData.fits {buf : Bytes} {b : Block} (h : ReadsData buf b)
    (hbuf : buf.length ≤ maxPayload) (source : EtherAddr) : Fits { b with source := source } := by
  obtain ⟨header, body, rest, htlv, -, -, hblock⟩ := h
  have hbody := length_takeTlv htlv
  have hlength := congrArg List.length (takeBlock_eq_some hblock)
  rw [List.length_append, Block.length_bytes, List.length_drop, List.length_take] at hlength
  change b.size ≤ room
  unfold room
  have hsize : 10 ≤ b.size := Nat.le_add_left _ _
  omega

theorem fits_mergeBlocks {now : Timespec} {mac : EtherAddr} {hash : DataHash} {bs : List Block}
    (hash_fits : ∀ k d, hash.find k = some d → Fits d.data) (hbs : ∀ b ∈ bs, Fits b) :
    ∀ k d, (mergeBlocks now mac hash bs).find k = some d → Fits d.data := by
  induction bs generalizing hash with
  | nil => exact hash_fits
  | cons b bs ih =>
    refine ih (fun k d hd => ?_) fun c hc => hbs c (List.mem_cons_of_mem b hc)
    rw [find_mergeBlock] at hd
    split_ifs at hd
    · rw [← Option.some_inj.mp hd]
      exact hbs b List.mem_cons_self
    · exact hash_fits k d hd

theorem Change.fits {env : Env} {g g' : Globals} {e : Event} {closed : List ℕ}
    (h : Change env g e g' closed) (hg : Sendable g) (he : Readable e) :
    ∀ k d, g'.dataHash.find k = some d → Fits d.data := by
  cases h with
  | quiet hdata htx => rw [hdata]; exact hg.data
  | leaked hlost => exact hg.data
  | pushed hmac hread hhead hdata htx => rw [hdata]; exact hg.data
  | ended hmac hread hhead hfinished hdata htx =>
    rw [hdata]
    split_ifs
    · refine fits_mergeBlocks hg.data fun b hb => ?_
      obtain ⟨p, hp, hb⟩ := List.mem_flatMap.mp hb
      exact (size_le_of_mem_blocksOf hb).trans (hg.packets _ _ hhead p hp)
    · exact hg.data
  | handed hread hinterface hsource hdata htx =>
    intro k d hd
    rw [hdata, Table.find_put] at hd
    split_ifs at hd
    · rw [← Option.some_inj.mp hd]
      exact hread.fits he _
    · exact hg.data k d hd
  | asked hread hmode hserver hnone hdata htx => rw [hdata]; exact hg.data
  | purged hdata htx =>
    intro k d hd
    rw [hdata, Table.find_filter, Option.filter_eq_some_iff] at hd
    exact hg.data k d hd.1

theorem sendable_step (g : Globals) (x : Env × Event) (hg : SoundHeads g ∧ Sendable g)
    (hx : Readable x.2) : SoundHeads (stepTo g x) ∧ Sendable (stepTo g x) := by
  refine ⟨soundHeads_step g x hg.1, (step_change x.1 g x.2).fits hg.2 hx, fun k head' hfind => ?_⟩
  · rcases (step_change x.1 g x.2).heads_cases hfind with h |
      ⟨name, source, buf, seqno, data, head, he, hmac, hread, hhead, rfl⟩ | ⟨sock, requestedType, rfl⟩
    · exact hg.2.packets k head' h
    · have hlength : data.length ≤ room := hread.length_le (by rw [he] at hx; exact hx)
      have hold : ∀ p ∈ head.packetList, p.data.length ≤ room := by
        rcases hhead with h | ⟨-, -, rfl⟩
        · exact hg.2.packets _ _ h
        · exact fun p hp => absurd hp List.not_mem_nil
      rcases keepPacket_packetList (hhead.sound hg.1).finished x.1.now seqno data with
        ⟨-, heq⟩ | ⟨-, heq⟩
      · rw [heq]
        exact hold
      · rw [heq]
        intro p hp
        rcases List.mem_append.mp hp with hp | hp
        · exact hold p hp
        · rw [List.mem_singleton.mp hp]
          exact hlength
    · exact fun p hp => absurd hp List.not_mem_nil

/-- A state that a node can be in when it reads no more than its buffers hold. -/
def Running (g : Globals) : Prop :=
  ∃ options start xs, (∀ x ∈ xs, Readable x.2) ∧ g = run (globalsInit options start) xs

theorem Running.run {g : Globals} (h : Running g) {xs : List (Env × Event)}
    (hxs : ∀ x ∈ xs, Readable x.2) : Running (run g xs) := by
  obtain ⟨options, start, before, hbefore, rfl⟩ := h
  refine ⟨options, start, before ++ xs, fun x hx => ?_, (run_append _ _ _).symm⟩
  rcases List.mem_append.mp hx with hx | hx
  · exact hbefore x hx
  · exact hxs x hx

theorem Running.sendable {g : Globals} (h : Running g) : Sendable g := by
  obtain ⟨options, start, xs, hxs, rfl⟩ := h
  exact (run_induction sendable_step hxs
    ⟨soundHeads_globalsInit options start, ⟨fun k d hd => (by cases hd), fun k head h => (by cases h)⟩⟩).2

/-- A node pushes every data set that is selected, each once, and every packet of it is one that
the others can read. -/
theorem pushData_complete {g : Globals} (hg : Running g) (id : UInt16) (maxSourceLevel : DataSource)
    (typeFilter : Option UInt8) :
    ∃ chunks, chunks.flatten = pushBlocks maxSourceLevel typeFilter g.dataHash ∧ Filled chunks ∧
      pushData id maxSourceLevel typeFilter g.dataHash =
        packets id chunks ++
          (if 0 < UInt16.ofNat chunks.length ∨ typeFilter ≠ none then
            [statusPacket alfredStatusTxend id (UInt16.ofNat chunks.length)] else []) ∧
      ∀ p ∈ packets id chunks, p.length ≤ maxPayload := by
  obtain ⟨chunks, hflatten, hfilled, hpush⟩ := pushData_spec id maxSourceLevel typeFilter g.dataHash
  refine ⟨chunks, ?_, hfilled, hpush, fun p hp => ?_⟩
  · rw [hflatten, List.filter_eq_self]
    intro b hb
    obtain ⟨d, hd, rfl⟩ := List.mem_map.mp hb
    exact decide_eq_true
      (hg.sendable.data _ d ((Table.mem_entries _).mp (List.mem_of_mem_filter hd)))
  · obtain ⟨i, hi, rfl⟩ := List.mem_mapIdx.mp hp
    have hlength := length_chunk hfilled (List.getElem_mem hi)
    simp only [pushPacket, packet, Tlv.bytes, htons, List.length_append, List.length_cons,
      List.length_nil]
    unfold room maxPayload at hlength
    unfold maxPayload
    omega

end Sizes

section Local

theorem Change.keeps {env : Env} {g g' : Globals} {e : Event} {closed : List ℕ}
    (h : Change env g e g' closed) {k : DataKey} {d : Dataset} (hfind : g.dataHash.find k = some d)
    (hlocal : d.dataSource = .sourceLocal)
    (hclient : ∀ sock buf b, e = .client sock buf → ReadsData buf b → b.type ≠ k.2)
    (hfresh : ∀ lost, e = .round lost → expired env.now d.lastSeen alfredDataTimeout = false) :
    g'.dataHash.find k = some d := by
  cases h with
  | quiet hdata htx => rwa [hdata]
  | leaked hlost => exact hfind
  | pushed hmac hread hhead hdata htx => rwa [hdata]
  | ended hmac hread hhead hfinished hdata htx =>
    rw [hdata]
    split_ifs
    · exact find_mergeBlocks_local hfind hlocal
    · exact hfind
  | @handed sock buf b source _ _ hread hinterface hsource hdata htx =>
    have hne : dataHashing.key ⟨{ b with source := source }, env.now, .sourceLocal⟩ ≠ k :=
      fun heq => hclient sock buf b rfl hread (congrArg Prod.snd heq)
    rw [hdata, Table.find_put_ne _ hne, hfind]
  | asked hread hmode hserver hnone hdata htx => rwa [hdata]
  | purged hdata htx =>
    rw [hdata, Table.find_filter, hfind, Option.filter_some, hfresh _ rfl]
    rfl

/-- What a client handed over stays as it is until a client hands over data of that type again, or
until it is too old: nothing that the network sends replaces it. -/
theorem local_kept {g : Globals} {k : DataKey} {d : Dataset} (hfind : g.dataHash.find k = some d)
    (hlocal : d.dataSource = .sourceLocal) {xs : List (Env × Event)}
    (hclients : ∀ x ∈ xs, ∀ sock buf b, x.2 = .client sock buf → ReadsData buf b → b.type ≠ k.2)
    (hfresh : ∀ x ∈ xs, ∀ lost, x.2 = .round lost →
      expired x.1.now d.lastSeen alfredDataTimeout = false) :
    (run g xs).dataHash.find k = some d :=
  run_induction (P := fun g => g.dataHash.find k = some d)
    (Q := fun x => (∀ sock buf b, x.2 = .client sock buf → ReadsData buf b → b.type ≠ k.2) ∧
      ∀ lost, x.2 = .round lost → expired x.1.now d.lastSeen alfredDataTimeout = false)
    (fun g x hg hx => (step_change x.1 g x.2).keeps hg hlocal hx.1 hx.2)
    (fun x hx => ⟨hclients x hx, hfresh x hx⟩) hfind

end Local

section Changes

/-- The types in the list are different ones, and the counter says how many. -/
structure ChangesOk (g : Globals) : Prop where
  nodup : g.changedDataTypes.Nodup
  count : g.changedDataTypeCount = UInt16.ofNat g.changedDataTypes.length

/-- The list of changes is only added to. -/
structure Reports (g g' : Globals) : Prop where
  command : g'.updateCommand = g.updateCommand
  subset : g.changedDataTypes ⊆ g'.changedDataTypes
  ok : ChangesOk g → ChangesOk g'

variable {env : Env} {g g' g'' : Globals}

theorem Reports.refl (g : Globals) : Reports g g := ⟨rfl, List.Subset.refl _, id⟩

theorem Reports.trans (h : Reports g g') (h' : Reports g' g'') : Reports g g'' :=
  ⟨h'.command.trans h.command, fun _ ht => h'.subset (h.subset ht), fun hg => h'.ok (h.ok hg)⟩

theorem Reports.of_eq (hcommand : g'.updateCommand = g.updateCommand)
    (hchanges : g'.changedDataTypes = g.changedDataTypes)
    (hcount : g'.changedDataTypeCount = g.changedDataTypeCount) : Reports g g' := by
  refine ⟨hcommand, by rw [hchanges]; exact List.Subset.refl _, fun hg => ⟨?_, ?_⟩⟩
  · rw [hchanges]
    exact hg.nodup
  · rw [hchanges, hcount]
    exact hg.count

theorem OnlyTables.reports (h : OnlyTables g g') : Reports g g' := by
  obtain ⟨hash, tx, rfl⟩ := h
  exact .of_eq rfl rfl rfl

theorem reports_foldl {α : Type} {f : Globals → α → Globals} (h : ∀ g a, Reports g (f g a))
    (as : List α) (g : Globals) : Reports g (as.foldl f g) := by
  induction as generalizing g with
  | nil => exact .refl g
  | cons a as ih => exact (h g a).trans (ih (f g a))

theorem reports_changedDataType (g : Globals) (t : UInt8) : Reports g (changedDataType g t) := by
  unfold changedDataType
  split_ifs with hcommand hthere
  · exact .refl g
  · exact .refl g
  · refine ⟨rfl, List.subset_cons_self _ _, fun hg => ⟨List.nodup_cons.mpr ⟨hthere, hg.nodup⟩, ?_⟩⟩
    rw [hg.count, ofNat_succ]
    rfl

theorem mem_changedDataType (hcommand : g.updateCommand ≠ none) (t : UInt8) :
    t ∈ (changedDataType g t).changedDataTypes := by
  rw [changedDataType, if_neg hcommand]
  split_ifs with hthere
  · exact hthere
  · exact List.mem_cons_self

theorem mem_foldl_changedDataType (hcommand : g.updateCommand ≠ none) {ds : List Dataset} {d : Dataset}
    (hd : d ∈ ds) :
    d.data.type ∈ (ds.foldl (fun g d => changedDataType g d.data.type) g).changedDataTypes := by
  obtain ⟨before, rest, rfl⟩ := List.append_of_mem hd
  have hreports : ∀ (ds : List Dataset) g, Reports g
      (ds.foldl (fun g d => changedDataType g d.data.type) g) :=
    reports_foldl fun g d => reports_changedDataType g d.data.type
  rw [List.foldl_append, List.foldl_cons]
  refine (hreports rest _).subset (mem_changedDataType ?_ _)
  rwa [(hreports before g).command]

/-- The bytes of a data set. -/
def content (g : Globals) (k : DataKey) : Option Bytes := (g.dataHash.find k).map fun d => d.data.data

/-- A change of a data set is added to the list. -/
structure Tells (k : DataKey) (g g' : Globals) : Prop extends Reports g g' where
  told : g.updateCommand ≠ none → content g' k ≠ content g k → k.2 ∈ g'.changedDataTypes

variable {k : DataKey}

theorem Tells.of_content (h : Reports g g') (hcontent : content g' k = content g k) : Tells k g g' :=
  ⟨h, fun _ hne => absurd hcontent hne⟩

theorem Tells.of_eq (hcommand : g'.updateCommand = g.updateCommand)
    (hchanges : g'.changedDataTypes = g.changedDataTypes)
    (hcount : g'.changedDataTypeCount = g.changedDataTypeCount)
    (hdata : g'.dataHash = g.dataHash) : Tells k g g' := by
  refine .of_content (.of_eq hcommand hchanges hcount) ?_
  rw [content, content, hdata]

theorem Tells.refl (g : Globals) : Tells k g g := .of_content (.refl g) rfl

theorem Tells.trans (h : Tells k g g') (h' : Tells k g' g'') : Tells k g g'' := by
  refine ⟨h.toReports.trans h'.toReports, fun hcommand hne => ?_⟩
  by_cases hsame : content g' k = content g k
  · exact h'.told (h.command ▸ hcommand) (hsame ▸ hne)
  · exact h'.subset (h.told hcommand hsame)

theorem tells_foldl {α : Type} {f : Globals → α → Globals} (h : ∀ g a, Tells k g (f g a))
    (as : List α) (g : Globals) : Tells k g (as.foldl f g) := by
  induction as generalizing g with
  | nil => exact .refl g
  | cons a as ih => exact (h g a).trans (ih (f g a))

theorem mergeBlock_changed {now : Timespec} {mac : EtherAddr} {hash : DataHash} {b : Block}
    (h : ((mergeBlock now mac hash b).1.find k).map (fun d => d.data.data) ≠
      (hash.find k).map fun d => d.data.data) :
    (mergeBlock now mac hash b).2 = true ∧ b.type = k.2 := by
  rw [find_mergeBlock] at h
  split_ifs at h with hk
  · obtain ⟨rfl, hlocal⟩ := hk
    refine ⟨?_, rfl⟩
    cases hfind : hash.find (blockKey b) with
    | none => simp [mergeBlock, hfind]
    | some d =>
      have hne : d.data.data ≠ b.data := by
        intro heq
        rw [hfind, Option.map_some, Option.map_some, heq] at h
        exact h rfl
      simp [mergeBlock, hfind, hlocal d hfind, hne]
  · exact absurd rfl h

theorem tells_finishBlock (now : Timespec) (mac : EtherAddr) (g : Globals) (b : Block) :
    Tells k g (finishBlock now mac g b) := by
  have hkey : ((mergeBlock now mac g.dataHash b).1.find k).map (fun d => d.data.data) ≠
      content g k → (mergeBlock now mac g.dataHash b).2 = true ∧ b.type = k.2 := mergeBlock_changed
  unfold finishBlock
  cases hmerge : mergeBlock now mac g.dataHash b with
  | mk hash changed =>
    rw [hmerge] at hkey
    have hreports : Reports g { g with dataHash := hash } := .of_eq rfl rfl rfl
    cases changed with
    | false =>
      refine ⟨hreports, fun _ hne => ?_⟩
      exact absurd (hkey hne).1 Bool.false_ne_true
    | true =>
      refine ⟨hreports.trans (reports_changedDataType _ b.type), fun hcommand hne => ?_⟩
      have hcontent : content (changedDataType { g with dataHash := hash } b.type) k =
          (hash.find k).map fun d => d.data.data := by
        rw [content, changedDataType_dataHash]
      simp only [if_true, hcontent] at hne
      rw [← (hkey hne).2]
      exact mem_changedDataType (g := { g with dataHash := hash }) hcommand b.type

theorem tells_finishTransaction (mac : EtherAddr) (head : TransactionHead) (seqno : UInt16) :
    Tells k g (finishTransaction env g mac head seqno).1 := by
  have hmerge : ∀ ps : List TransactionPacket,
      Tells k g (ps.foldl (finishAlfredPushData env.now mac) g) := fun ps =>
    tells_foldl (fun g p => tells_foldl (tells_finishBlock env.now mac) _ g) ps g
  have hclean : ∀ g, Tells k g (transactionClean g head) := fun g =>
    .of_content (.of_eq rfl rfl rfl) rfl
  by_cases hall : head.numPacket = seqno.toNat
  · simp only [finishTransaction, hall, ne_eq, not_true_eq_false, if_false, if_true]
    exact (hmerge head.packetList).trans (hclean _)
  · simp only [finishTransaction, hall, ne_eq, not_false_eq_true, if_true]
    exact hclean g

theorem tells_purgeDatasets (now : Timespec) (g : Globals) : Tells k g (purgeDatasets now g) := by
  have hreports := reports_foldl (fun g (d : Dataset) => reports_changedDataType g d.data.type)
    (g.dataHash.entries.filter fun d => expired now d.lastSeen alfredDataTimeout) g
  refine ⟨⟨hreports.command, hreports.subset, fun hg => ⟨(hreports.ok hg).nodup, (hreports.ok hg).count⟩⟩,
    fun hcommand hne => ?_⟩
  have hkept : content (purgeDatasets now g) k =
      ((g.dataHash.find k).filter fun d => !expired now d.lastSeen alfredDataTimeout).map
        fun d => d.data.data := by
    rw [content, (purgeDatasets_tables g now).1, Table.find_filter]
  rw [hkept, content] at hne
  cases hd : g.dataHash.find k with
  | none =>
    rw [hd] at hne
    exact absurd rfl hne
  | some d =>
    rw [hd, Option.filter_some] at hne
    cases hstale : expired now d.lastSeen alfredDataTimeout with
    | false =>
      rw [hstale] at hne
      exact absurd rfl hne
    | true =>
      have hkey : dataHashing.key d = k := Table.find_key _ hd
      have hmem : d ∈ g.dataHash.entries := by
        rw [Table.mem_entries, hkey, hd]
      rw [← hkey]
      exact mem_foldl_changedDataType hcommand (List.mem_filter.mpr ⟨hmem, hstale⟩)

theorem tells_announce (interface : Bytes) (source : In6Addr) (header : Tlv) :
    Tells k g (processAlfredAnnounceMaster env g interface source header) := by
  rcases processAlfredAnnounceMaster_cases env g interface source header with heq | ⟨mac, -, heq⟩
  · rw [heq]
    exact .refl g
  · rw [heq]
    split_ifs <;> exact .of_eq rfl rfl rfl rfl

theorem tells_txend (source : In6Addr) (header : Tlv) (body : Bytes) :
    Tells k g (processAlfredStatusTxend env g source header body).1 := by
  unfold processAlfredStatusTxend
  split_ifs
  · exact .refl g
  · exact .refl g
  split
  · split
    · exact .refl g
    split_ifs
    · exact .refl g
    · exact tells_finishTransaction _ _ _
  · exact .refl g

theorem tells_push {source : In6Addr} {header : Tlv} {body : Bytes} :
    Tells k g (processAlfredPushData env g source header body) := by
  obtain ⟨tx, h⟩ := processAlfredPushData_eq env (g := g) source header body
  rw [h]
  exact .of_eq rfl rfl rfl rfl

theorem tells_recv (i : Interface) (source : In6Addr) (buf : Bytes) :
    Tells k g (recvAlfredPacket env g i source buf).1 := by
  exact recvAlfredPacket_cases (motive := fun r => Tells k g r.1) env g i source buf (.refl g)
    (fun header body _ _ _ => tells_push) (fun header => tells_announce _ _ _)
    (fun header body => .refl g) fun header body _ _ => tells_txend _ _ _

end Changes

section Told
variable {g : Globals} {k : DataKey}

def commands (out : List Output) : List (List Char) :=
  out.filterMap fun
    | .system command => some command
    | _ => none

/-- The update command with these types as its arguments. -/
def updateCall (command : List Char) (types : List UInt8) : List Char :=
  command ++ types.flatMap fun t => ' ' :: Nat.toDigits 10 t.toNat

theorem length_type_le (t : UInt8) : (' ' :: Nat.toDigits 10 t.toNat).length ≤ 4 := by
  have ht := t.toNat_lt
  have hdigits : (Nat.toDigits 10 t.toNat).length ≤ 3 :=
    (Nat.length_toDigits_le_iff (by decide) (by decide)).mpr (by omega)
  rw [List.length_cons]
  omega

/-- The buffer is large enough. -/
theorem foldl_appendType {size : ℕ} {command : List Char} {types : List UInt8}
    (h : command.length + 4 * types.length < size) :
    types.foldl (appendType size) command = updateCall command types := by
  induction types generalizing command with
  | nil => simp [updateCall]
  | cons t types ih =>
    have ht := length_type_le t
    rw [List.length_cons] at h
    have happend : appendType size command t = command ++ ' ' :: Nat.toDigits 10 t.toNat := by
      rw [appendType, List.take_of_length_le ht, List.take_of_length_le (by omega)]
    rw [List.foldl_cons, happend, ih]
    · simp [updateCall]
    · rw [List.length_append]
      omega

theorem ChangesOk.length_le {g : Globals} (h : ChangesOk g) : g.changedDataTypes.length ≤ 256 := by
  have hnodup : (g.changedDataTypes.map UInt8.toNat).Nodup :=
    h.nodup.map fun _ _ heq => UInt8.toNat_inj.mp heq
  have hsubset : g.changedDataTypes.map UInt8.toNat ⊆ List.range 256 := by
    intro n hn
    obtain ⟨t, -, rfl⟩ := List.mem_map.mp hn
    exact List.mem_range.mpr t.toNat_lt
  have hle := (List.subperm_of_subset hnodup hsubset).length_le
  rwa [List.length_map, List.length_range] at hle

theorem executeUpdateCommand_spec {g : Globals} {command : List Char}
    (hcommand : g.updateCommand = some command) (h : ChangesOk g) :
    commands (executeUpdateCommand g).2 =
        (if g.changedDataTypes = [] then [] else [updateCall command g.changedDataTypes]) ∧
      (executeUpdateCommand g).1.changedDataTypes = [] := by
  have hlength := h.length_le
  have hcount : g.changedDataTypeCount.toNat = g.changedDataTypes.length := by
    rw [h.count, UInt16.toNat_ofNat', Nat.mod_eq_of_lt (by omega)]
  by_cases hnone : g.changedDataTypes = []
  · have hzero : g.changedDataTypeCount = 0 := by
      rw [h.count, hnone]
      rfl
    simp only [executeUpdateCommand, hcommand, if_pos hzero, if_pos hnone]
    exact ⟨rfl, hnone⟩
  · have hpos : g.changedDataTypeCount ≠ 0 := by
      intro hzero
      rw [hzero] at hcount
      exact hnone (List.length_eq_zero_iff.mp hcount.symm)
    simp only [executeUpdateCommand, hcommand, if_neg hpos, if_neg hnone]
    refine ⟨?_, trivial⟩
    rw [hcount, List.take_of_length_le (by omega), foldl_appendType (by omega)]
    rfl

theorem commands_append (out out' : List Output) :
    commands (out ++ out') = commands out ++ commands out' := List.filterMap_append

theorem commands_eq_nil {out : List Output} (h : ∀ o ∈ out, ∀ command, o ≠ .system command) :
    commands out = [] := by
  rw [commands, List.filterMap_eq_nil_iff]
  intro o ho
  cases o with
  | system command => exact absurd rfl (h _ ho command)
  | _ => rfl

theorem commands_serverRound (env : Env) (g : Globals) (lost : Bytes → Bool) :
    commands (serverRound env g lost).2 =
      commands (executeUpdateCommand (checkIfSockets env (purgeData env g).1 lost)).2 := by
  have hsent : commands (roundSends env g) = [] := by
    refine commands_eq_nil fun o ho command hsystem => ?_
    obtain ⟨i, -, dest, buf, hsend, -⟩ := mem_roundSends env g ho
    rw [hsystem, mem_sendAlfredPacket] at hsend
    cases hsend.2
  have hfinished : commands (purgeData env g).2 = [] := by
    refine commands_eq_nil fun o ho command => ?_
    obtain ⟨head, -, ho⟩ := List.mem_flatMap.mp ho
    rintro rfl
    exact toClient_finishClient _ ho
  unfold roundSends at hsent
  simp only [serverRound, commands_append, hsent, hfinished, List.nil_append]

theorem stepTo_round (env : Env) (g : Globals) (lost : Bytes → Bool) :
    stepTo g (env, .round lost) =
      (executeUpdateCommand (checkIfSockets env (purgeData env g).1 lost)).1 := by
  simp only [stepTo, step, serverRound]

/-- All that a node does before the update command of a round is run. -/
theorem tells_purgeData (env : Env) (g : Globals) (lost : Bytes → Bool) :
    Tells k g (checkIfSockets env (purgeData env g).1 lost) := by
  have hservers : ∀ g, Tells k g (purgeServers env.now g) := by
    intro g
    simp only [purgeServers]
    split_ifs <;> exact .of_eq rfl rfl rfl rfl
  have htx : ∀ g, Tells k g (purgeTransactions env g).1 := fun g => .of_eq rfl rfl rfl rfl
  have hsockets : ∀ g, Tells k g (checkIfSockets env g lost) := by
    intro g
    unfold checkIfSockets
    split_ifs <;> exact .of_eq rfl rfl rfl rfl
  rw [purgeData]
  exact (((tells_purgeDatasets env.now g).trans (hservers _)).trans (htx _)).trans (hsockets _)

/-- No client hands over data of the type. -/
def HandsNone (t : UInt8) : Event → Prop
  | .client _ buf => ∀ b, ReadsData buf b → b.type ≠ t
  | _ => True

def IsRound : Event → Prop
  | .round _ => True
  | _ => False

theorem reports_unixSockRead (env : Env) (g : Globals) (sock : ℕ) (buf : Bytes) :
    Reports g (unixSockRead env g sock buf).1 := by
  refine unixSockRead_cases (motive := fun r => Reports g r.1) env g sock buf (.refl g)
    (fun header body _ _ _ => ?_) (fun header body _ _ _ => ?_) (fun header body => ?_)
    fun header body => ?_
  · exact (onlyTables_unixSockAddData env header body).reports
  · exact (onlyTables_unixSockReqData env sock header body).reports
  · unfold unixSockModesw
    cases body <;> simp only <;> split_ifs <;> exact .of_eq rfl rfl rfl
  · simp only [unixSockChangeIface]
    split_ifs <;> exact .of_eq rfl rfl rfl

theorem tells_client {env : Env} {sock : ℕ} {buf : Bytes} (hnone : HandsNone k.2 (.client sock buf)) :
    Tells k g (stepTo g (env, .client sock buf)) := by
  refine .of_content (reports_unixSockRead env g sock buf) ?_
  have hchange := step_change env g (.client sock buf)
  unfold stepTo
  generalize (step env g (.client sock buf)).1 = g', closes (step env g (.client sock buf)).2 = closed
    at hchange
  cases hchange with
  | quiet hdata htx => rw [content, content, hdata]
  | leaked hlost => rfl
  | @handed _ _ b source interface _ hread hinterface hsource hdata htx =>
    have hne : dataHashing.key ⟨{ b with source := source }, env.now, .sourceLocal⟩ ≠ k :=
      fun heq => hnone b hread (congrArg Prod.snd heq)
    rw [content, content, hdata, Table.find_put_ne _ hne]
  | asked hread hmode hserver hnone hdata htx => rw [content, content, hdata]

theorem tells_step {x : Env × Event} (hround : ¬ IsRound x.2) (hnone : HandsNone k.2 x.2) :
    Tells k g (stepTo g x) := by
  obtain ⟨env, e⟩ := x
  cases e with
  | recv name source buf =>
    simp only [stepTo, step]
    cases g.interfaces.find? fun i => i.name = name with
    | none => exact .refl g
    | some i => exact tells_recv i source buf
  | client sock buf => exact tells_client hnone
  | reopen device bound => exact .of_eq rfl rfl rfl rfl
  | error lost => exact .of_eq rfl rfl rfl rfl
  | round lost => exact absurd trivial hround

theorem reports_step {x : Env × Event} (hround : ¬ IsRound x.2) : Reports g (stepTo g x) := by
  obtain ⟨env, e⟩ := x
  cases e with
  | recv name source buf =>
    have hnone : HandsNone 0 (.recv name source buf) := trivial
    exact (tells_step (k := (⟨0, 0, 0, 0, 0, 0⟩, 0)) (x := (env, .recv name source buf)) hround
      hnone).toReports
  | client sock buf => exact reports_unixSockRead env g sock buf
  | reopen device bound => exact .of_eq rfl rfl rfl
  | error lost => exact .of_eq rfl rfl rfl
  | round lost => exact absurd trivial hround

theorem changesOk_executeUpdateCommand (h : ChangesOk g) : ChangesOk (executeUpdateCommand g).1 := by
  unfold executeUpdateCommand
  split
  · exact h
  · simp only
    split_ifs
    · exact h
    · exact ⟨List.nodup_nil, rfl⟩

theorem changesOk_step (x : Env × Event) (h : ChangesOk g) : ChangesOk (stepTo g x) := by
  by_cases hround : IsRound x.2
  · obtain ⟨env, e⟩ := x
    cases e with
    | round lost =>
      have hpurged : ChangesOk (checkIfSockets env (purgeData env g).1 lost) :=
        (tells_purgeData (k := (⟨0, 0, 0, 0, 0, 0⟩, 0)) env g lost).ok h
      rw [stepTo_round]
      exact changesOk_executeUpdateCommand hpurged
    | _ => cases hround
  · exact (reports_step hround).ok h

theorem Reached.changesOk (h : Reached g) : ChangesOk g := by
  obtain ⟨options, start, xs, rfl⟩ := h
  exact run_induction (Q := fun _ => True) (fun g x hg _ => changesOk_step x hg)
    (fun _ _ => trivial) ⟨List.nodup_nil, rfl⟩

theorem executeUpdateCommand_dataHash (g : Globals) :
    (executeUpdateCommand g).1.dataHash = g.dataHash := (executeUpdateCommand_tables g).1

/-- In every round the update command is run once with each type of which a data set is another than
after the last round, is new or is gone, where no client has handed it over; it is not run when
nothing is to be told. -/
theorem update_command_told {command : List Char} (hg : Reached g)
    (hcommand : g.updateCommand = some command) {xs : List (Env × Event)}
    (hxs : ∀ x ∈ xs, ¬ IsRound x.2) (env : Env) (lost : Bytes → Bool) :
    ∃ types : List UInt8, types.Nodup ∧
      commands (step env (run g xs) (.round lost)).2 =
        (if types = [] then [] else [updateCall command types]) ∧
      ∀ k, (∀ x ∈ xs, HandsNone k.2 x.2) →
        content (run g (xs ++ [(env, .round lost)])) k ≠ content g k → k.2 ∈ types := by
  have hreports : Reports g (run g xs) :=
    run_induction (P := fun g' => Reports g g') (fun g' x h hx => h.trans (reports_step hx)) hxs (.refl g)
  have hok : ChangesOk (run g xs) := hreports.ok hg.changesOk
  have hpurged : ∀ k, Tells k (run g xs) (checkIfSockets env (purgeData env (run g xs)).1 lost) :=
    fun k => tells_purgeData env (run g xs) lost
  have hcommand' : (checkIfSockets env (purgeData env (run g xs)).1 lost).updateCommand =
      some command := by
    rw [(hpurged (⟨0, 0, 0, 0, 0, 0⟩, 0)).command, hreports.command, hcommand]
  have hok' := (hpurged (⟨0, 0, 0, 0, 0, 0⟩, 0)).ok hok
  refine ⟨_, hok'.nodup, ?_, fun k hnone hne => ?_⟩
  · rw [← (executeUpdateCommand_spec hcommand' hok').1]
    exact commands_serverRound env (run g xs) lost
  · have hrun : Tells k g (run g xs) :=
      run_induction (P := fun g' => Tells k g g') (Q := fun x => ¬ IsRound x.2 ∧ HandsNone k.2 x.2)
        (fun g' x h hx => h.trans (tells_step hx.1 hx.2)) (fun x hx => ⟨hxs x hx, hnone x hx⟩) (.refl g)
    have hlast : content (run g (xs ++ [(env, .round lost)])) k =
        content (checkIfSockets env (purgeData env (run g xs)).1 lost) k := by
      have hround : run g (xs ++ [(env, .round lost)]) = stepTo (run g xs) (env, .round lost) :=
        run_append g xs _
      rw [hround, stepTo_round, content, content, executeUpdateCommand_dataHash]
    rw [hlast] at hne
    exact (hrun.trans (hpurged k)).told (by rw [hcommand]; exact Option.some_ne_none _) hne

end Told

section Sample

/-- What another node says about the same source and type. -/
def otherBlock : Block := ⟨⟨2, 0, 0, 0, 0, 7⟩, 66, 1, [111], by decide⟩

/-- A client hands over the data, and a peer pushes others. -/
def sampleHanded : List (Env × Event) :=
  [(sampleEnv, .reopen (fun _ => some (⟨2, 0, 0, 0, 0, 9⟩, 3)) fun _ => true),
    (sampleEnv, .client 4 samplePush)]

def sampleOther : List (Env × Event) :=
  [(sampleEnv, .recv [97] (macToIpv6 sampleMac) (pushPacket 6 0 otherBlock.bytes)),
    (sampleEnv, .recv [97] (macToIpv6 sampleMac) (statusPacket alfredStatusTxend 6 1))]

def sampleHolder : Globals := run (globalsInit ⟨.master, [97], [98], none⟩ ⟨0, 0⟩) sampleHanded

theorem running_sampleHolder : Running sampleHolder := by
  refine ⟨_, _, sampleHanded, fun x hx => ?_, rfl⟩
  rcases List.mem_cons.mp hx with rfl | hx
  · trivial
  · rw [List.mem_singleton.mp hx]
    exact (by decide : samplePush.length ≤ maxPayload)

theorem pushData_complete_sample : ∃ chunks,
    chunks.flatten = pushBlocks .sourceLocal none sampleHolder.dataHash ∧ Filled chunks ∧
      pushData 5 .sourceLocal none sampleHolder.dataHash =
        packets 5 chunks ++
          (if 0 < UInt16.ofNat chunks.length ∨ (none : Option UInt8) ≠ none then
            [statusPacket alfredStatusTxend 5 (UInt16.ofNat chunks.length)] else []) ∧
      ∀ p ∈ packets 5 chunks, p.length ≤ maxPayload :=
  pushData_complete running_sampleHolder 5 .sourceLocal none

theorem local_kept_sample :
    (run (run sampleNode [(sampleEnv, .client 4 samplePush)]) sampleOther).dataHash.find
      (blockKey sampleBlock) = some ⟨sampleBlock, ⟨0, 0⟩, .sourceLocal⟩ := by
  refine local_kept (by decide) rfl (fun x hx sock buf b he => ?_) fun x hx lost he => ?_
  · rcases List.mem_cons.mp hx with rfl | hx
    · cases he
    · rw [List.mem_singleton.mp hx] at he
      cases he
  · rcases List.mem_cons.mp hx with rfl | hx
    · cases he
    · rw [List.mem_singleton.mp hx] at he
      cases he

def sampleCommanded : Globals :=
  run (globalsInit ⟨.master, [97], [98], some ['c']⟩ ⟨0, 0⟩) (sampleHanded.take 1)

theorem update_command_told_sample : ∃ types : List UInt8, types.Nodup ∧
      commands (step sampleEnv (run sampleCommanded sampleOther) (.round fun _ => false)).2 =
        (if types = [] then [] else [updateCall ['c'] types]) ∧
      ∀ k, (∀ x ∈ sampleOther, HandsNone k.2 x.2) →
        content (run sampleCommanded (sampleOther ++ [(sampleEnv, .round fun _ => false)])) k ≠
          content sampleCommanded k → k.2 ∈ types := by
  refine update_command_told ⟨_, _, sampleHanded.take 1, rfl⟩ rfl (fun x hx => ?_) sampleEnv _
  rcases List.mem_cons.mp hx with rfl | hx
  · exact not_false
  · rw [List.mem_singleton.mp hx]
    exact not_false

example : commands (step sampleEnv (run sampleCommanded sampleOther) (.round fun _ => false)).2 =
    [['c', ' ', '6', '6']] := by decide

end Sample

end NexFi.AlfredServer
