import NexFi.AlfredSync

/-!
# The clients' sockets

Each connection that the daemon accepts is closed once, waits in one transaction,
or is lost: the two ways in which a request fails without an answer leave its
socket open. Connections have numbers of their own here, unlike descriptors.
-/

namespace NexFi.AlfredServer
open AlfredPacket AlfredData ChainTable

/-- The clients that wait for the end of a transaction. -/
def held (g : Globals) : List ℕ := g.transactionHash.entries.filterMap TransactionHead.clientSocket

def accepted : Event → List ℕ
  | .client sock _ => [sock]
  | _ => []

/-- A request that is malformed, or whose id the server already has a transaction for. -/
def Unanswered (g : Globals) (buf : Bytes) : Prop :=
  (∃ header body, takeTlv buf = some (header, body) ∧ header.type = alfredRequest ∧
    header.length ≠ 3) ∨
  ∃ requestedType id, ReadsRequest buf requestedType id ∧
    ∀ server, g.bestServer.bind (deref g) = some server → (heads g (server.hwaddr, id)).isSome

section Step
variable {env : Env} {g g' : Globals} {e : Event} {closed : List ℕ}

theorem accepted_eq_ownSocket (e : Event) : accepted e = ownSocket e := by
  cases e <;> rfl

theorem held_perm {heads' : List TransactionHead}
    (h : g.transactionHash.entries.Perm heads') :
    (held g).Perm (heads'.filterMap TransactionHead.clientSocket) := h.filterMap _

theorem filterMap_cons_toList (head : TransactionHead) (rest : List TransactionHead) :
    (head :: rest).filterMap TransactionHead.clientSocket =
      head.clientSocket.toList ++ rest.filterMap TransactionHead.clientSocket := by
  cases h : head.clientSocket <;> simp [h]

theorem keepPacket_clientSocket (now : Timespec) (head : TransactionHead) (seqno : UInt16)
    (data : Bytes) : (keepPacket now head seqno data).clientSocket = head.clientSocket := by
  simp only [keepPacket]
  split_ifs <;> rfl

/-- A socket that is accepted is held, closed or lost, and only what was held is closed besides. -/
theorem Change.sockets (h : Change env g e g' closed) : ∃ lost : List ℕ,
    (closed ++ held g' ++ lost).Perm (held g ++ accepted e) ∧
      ∀ sock ∈ lost, ∃ buf, e = .client sock buf ∧ Unanswered g buf := by
  have hnil : ∀ sock ∈ ([] : List ℕ), ∃ buf, e = .client sock buf ∧ Unanswered g buf :=
    fun sock hsock => absurd hsock List.not_mem_nil
  cases h with
  | quiet hdata htx =>
    refine ⟨[], ?_, hnil⟩
    rw [accepted_eq_ownSocket, held, htx, List.append_nil]
    exact List.perm_append_comm
  | @leaked sock buf hlost =>
    refine ⟨[sock], List.Perm.refl _, fun sock' hsock => ?_⟩
    rw [List.mem_singleton.mp hsock]
    exact ⟨buf, rfl, hlost⟩
  | @pushed _ _ _ data mac id seqno head _ hmac hread hhead hdata htx =>
    refine ⟨[], ?_, hnil⟩
    have hkey : txHashing.key (keepPacket env.now head seqno data) = (mac, id) := by
      obtain ⟨hmac', hid⟩ := keepPacket_key env.now head seqno data
      rcases hhead with hhead | ⟨-, -, rfl⟩
      · obtain ⟨hmac'', hid'⟩ := head_key g hhead
        exact Prod.ext (hmac'.trans hmac'') (hid.trans hid')
      · exact Prod.ext hmac' hid
    have hentries : g'.transactionHash.entries.Perm (keepPacket env.now head seqno data ::
        (g.transactionHash.remove (txHashing.key (keepPacket env.now head seqno data))).entries) :=
      Table.entries_perm_of_update_some (by rw [hkey]; exact htx)
    have hnew := held_perm hentries
    rw [filterMap_cons_toList, keepPacket_clientSocket, hkey] at hnew
    have hold : (held g).Perm (head.clientSocket.toList ++
        ((g.transactionHash.remove (mac, id)).entries.filterMap TransactionHead.clientSocket)) := by
      rcases hhead with hhead | ⟨hnone, -, rfl⟩
      · rw [← filterMap_cons_toList]
        exact held_perm (Table.entries_perm_of_find_some _ hhead)
      · refine held_perm (Table.entries_perm_of_find ?_)
        rw [Table.find_remove_eq_update, ← show heads g (mac, id) = none from hnone,
          Function.update_eq_self]
    simpa [accepted] using hnew.trans hold.symm
  | @ended _ _ _ mac id seqno head _ hmac hread hhead hfinished hdata htx =>
    refine ⟨[], ?_, hnil⟩
    have hentries : g'.transactionHash.entries.Perm (g.transactionHash.remove (mac, id)).entries :=
      Table.entries_perm_of_update_none htx
    have hnew := held_perm hentries
    have hold := held_perm (Table.entries_perm_of_find_some _ hhead)
    rw [filterMap_cons_toList] at hold
    simpa [accepted] using (hnew.append_left _).trans hold.symm
  | @handed sock _ _ _ _ _ _ _ _ hdata htx =>
    refine ⟨[], ?_, hnil⟩
    rw [held, htx, List.append_nil]
    exact List.perm_append_comm
  | @asked sock buf requestedType server id _ hread hmode hserver hnone hdata htx =>
    refine ⟨[], ?_, hnil⟩
    have hentries : g'.transactionHash.entries.Perm ({ freshHead server.hwaddr id env.now with
          requestedType := requestedType, clientSocket := some sock } ::
        (g.transactionHash.remove (server.hwaddr, id)).entries) :=
      Table.entries_perm_of_update_some htx
    have hnew := held_perm hentries
    rw [filterMap_cons_toList] at hnew
    have hold : (held g).Perm ((g.transactionHash.remove (server.hwaddr, id)).entries.filterMap
        TransactionHead.clientSocket) := by
      refine held_perm (Table.entries_perm_of_find ?_)
      rw [Table.find_remove_eq_update, ← hnone, Function.update_eq_self]
    have hsock : (held g').Perm ([sock] ++ held g) := hnew.trans (hold.symm.append_left [sock])
    simpa [accepted] using hsock.trans List.perm_append_comm
  | @purged lost _ hdata htx =>
    refine ⟨[], ?_, hnil⟩
    have hnone : accepted (.round lost) = [] := rfl
    rw [held, htx, Table.entries_filter, held, ← List.filterMap_append, hnone, List.append_nil,
      List.append_nil]
    exact (List.filter_append_perm _ _).filterMap _

end Step

section Runs

/-- The sockets that are closed in a run. -/
def closedBy (g : Globals) : List (Env × Event) → List ℕ
  | [] => []
  | x :: xs => closes (step x.1 g x.2).2 ++ closedBy (stepTo g x) xs

def acceptedBy (xs : List (Env × Event)) : List ℕ := xs.flatMap fun x => accepted x.2

theorem sockets_run (g : Globals) (xs : List (Env × Event)) : ∃ lost : List ℕ,
    (closedBy g xs ++ held (run g xs) ++ lost).Perm (held g ++ acceptedBy xs) ∧
      ∀ sock ∈ lost, ∃ earlier x rest buf, xs = earlier ++ x :: rest ∧ x.2 = .client sock buf ∧
        Unanswered (run g earlier) buf := by
  induction xs generalizing g with
  | nil => exact ⟨[], by simp [closedBy, acceptedBy, run], fun _ h => absurd h List.not_mem_nil⟩
  | cons x xs ih =>
    obtain ⟨lost₁, hperm₁, hlost₁⟩ := (step_change x.1 g x.2).sockets
    obtain ⟨lost₂, hperm₂, hlost₂⟩ := ih (stepTo g x)
    refine ⟨lost₁ ++ lost₂, ?_, fun sock hsock => ?_⟩
    · rw [List.perm_iff_count] at hperm₁ hperm₂ ⊢
      intro sock
      have hcount₁ := hperm₁ sock
      have hcount₂ := hperm₂ sock
      simp only [closedBy, acceptedBy, run, List.foldl_cons, List.flatMap_cons, List.count_append,
        stepTo] at hcount₁ hcount₂ ⊢
      omega
    · rcases List.mem_append.mp hsock with hsock | hsock
      · obtain ⟨buf, hx, hun⟩ := hlost₁ sock hsock
        exact ⟨[], x, xs, buf, rfl, hx, hun⟩
      · obtain ⟨earlier, y, rest, buf, hxs, hy, hun⟩ := hlost₂ sock hsock
        exact ⟨x :: earlier, y, rest, buf, by rw [hxs]; rfl, hy, hun⟩

/-- In every run of the daemon each accepted connection is closed exactly once, is held by one
transaction, or was lost with a request that got no answer. -/
theorem sockets_accounted (options : Options) (start : Timespec) (xs : List (Env × Event)) :
    ∃ lost : List ℕ, (closedBy (globalsInit options start) xs ++
        held (run (globalsInit options start) xs) ++ lost).Perm (acceptedBy xs) ∧
      ∀ sock ∈ lost, ∃ earlier x rest buf, xs = earlier ++ x :: rest ∧ x.2 = .client sock buf ∧
        Unanswered (run (globalsInit options start) earlier) buf := by
  have hheld : held (globalsInit options start) = [] := by
    simp [held, globalsInit, Table.entries, Table.empty]
  obtain ⟨lost, hperm, hlost⟩ := sockets_run (globalsInit options start) xs
  rw [hheld, List.nil_append] at hperm
  exact ⟨lost, hperm, hlost⟩

end Runs

end NexFi.AlfredServer
