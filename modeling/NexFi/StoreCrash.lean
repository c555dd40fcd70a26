import NexFi.StoreReplies
import NexFi.StoreTraces

/-!
# Crashes and failures on the way

What the restarted server shows after a request was cut depends on the remove
and on the number of messages written behind the create. A document survives
everything but a cut between the two; a cut behind the create, or a write that
fails there, leaves a file that no later save replaces.
-/

namespace NexFi.StoreHandlers
open Posix Prog StoreDB GoJson

namespace Endpoint
variable {V : Type} (ep : Endpoint V)

/-- The directory after complete requests, one after another. -/
def serve (fs : Fs FileName) (rs : List Request) : Fs FileName :=
  rs.foldl (fun fs r => (run perform (ep.handler r) fs).2) fs

theorem serve_cons (fs : Fs FileName) (r : Request) (rs : List Request) :
    ep.serve fs (r :: rs) = ep.serve (run perform (ep.handler r) fs).2 rs := rfl

theorem current_served {fs : Fs FileName} (h : (ep.current fs).isSome) (r : Request) :
    (ep.current (run perform (ep.handler r) fs).2).isSome := by
  cases hr : ep.saves r.method with
  | false =>
    rw [ep.run_load fs hr]
    simpa [ep.current_mkdirAll] using h
  | true => simp [ep.current_saved fs hr (Or.inr h)]

theorem current_serve (rs : List Request) {fs : Fs FileName} (h : (ep.current fs).isSome) :
    (ep.current (ep.serve fs rs)).isSome := by
  induction rs generalizing fs with
  | nil => exact h
  | cons r rs ih =>
    rw [serve_cons]
    exact ih (ep.current_served h r)

theorem serve_append (fs : Fs FileName) (rs more : List Request) :
    ep.serve fs (rs ++ more) = ep.serve (ep.serve fs rs) more := List.foldl_append

theorem healthy_served {fs : Fs FileName} (h : ep.Healthy fs) (r : Request) :
    ep.Healthy (run perform (ep.handler r) fs).2 := by
  cases hr : ep.saves r.method with
  | false =>
    rw [ep.run_load fs hr, Healthy, ep.current_mkdirAll, Fs.entry_mkdirAll]
    exact h
  | true => exact Or.inr (by simp [ep.current_saved fs hr h])

theorem healthy_serve (rs : List Request) {fs : Fs FileName} (h : ep.Healthy fs) :
    ep.Healthy (ep.serve fs rs) := by
  induction rs generalizing fs with
  | nil => exact h
  | cons r rs ih =>
    rw [serve_cons]
    exact ih (ep.healthy_served h r)

theorem current_serve_loads {rs : List Request} (h : ∀ r ∈ rs, ep.saves r.method = false)
    (fs : Fs FileName) : ep.current (ep.serve fs rs) = ep.current fs := by
  induction rs generalizing fs with
  | nil => rfl
  | cons r rs ih =>
    have hfirst : ep.current (run perform (ep.handler r) fs).2 = ep.current fs := by
      rw [ep.run_load fs (h r List.mem_cons_self)]
      exact ep.current_mkdirAll fs
    rw [serve_cons, ih (fun r' hr' => h r' (List.mem_cons_of_mem r hr')), hfirst]

theorem current_congr {fs gs : Fs FileName} (h : gs.content ep.key = fs.content ep.key) :
    ep.current gs = ep.current fs := by
  unfold current stored
  rw [h]

/-- A save killed between two calls, without failures: the old document, or
none, or the new one, told apart by the remove and the last write. -/
theorem current_killed {fs gs : Fs FileName} (h : (ep.current fs).isSome) {post : Request}
    (hpost : ep.saves post.method = true) {tr : List (Event FileName)} {q : Io (Reply V)}
    (hrun : Runs (ep.handler post) fs tr q gs) (hok : ∀ e ∈ tr, e.fault = none) :
    let v := (ep.decoded post.body).value
    stores tr ≤ (ep.gob.messages v).length ∧
    ((∀ e ∈ tr, ¬ Removed ep.key e) → ep.current gs = ep.current fs ∧ stores tr = 0) ∧
    ((∃ e ∈ tr, Removed ep.key e) → stores tr < (ep.gob.messages v).length →
      ep.current gs = none) ∧
    (stores tr = (ep.gob.messages v).length → ep.current gs = some (ep.gob.canon v)) := by
  have hpos : ∀ v, 0 < (ep.gob.messages v).length := fun v =>
    List.length_pos_iff.mpr (ep.gob.messages_ne v)
  have hpresent : fs.entry ep.key ≠ none := fun he => by
    simp [ep.current_of_absent he] at h
  dsimp only
  generalize hv : (ep.decoded post.body).value = v
  rcases ep.runs_save hpost hrun with hquiet | ⟨-, hcleared, hencoded⟩
  · have hnone : stores tr = 0 := stores_of_quiet hquiet
    refine ⟨by omega, fun hno => ⟨?_, hnone⟩, fun hrem _ => ?_, fun hall => ?_⟩
    · exact ep.current_congr (quiet_kept hrun ep.key fun e he => ⟨hquiet e he, hno e he⟩).2
    · exact ep.current_of_absent (quiet_removed hrun ep.key hquiet hrem)
    · have := hpos v
      omega
  · obtain ⟨e, he, hrem⟩ := (hcleared hok).resolve_left hpresent
    rw [hv] at hencoded
    rcases hencoded with ⟨-, ⟨hcount, hstored⟩ | ⟨hcount, hstored⟩⟩
    · exact ⟨hcount.le, fun hno => absurd hrem (hno e he),
        fun _ hlt => absurd hcount hlt.ne, fun _ => hstored⟩
    · exact ⟨hcount.le, fun hno => absurd hrem (hno e he),
        fun _ _ => hstored, fun hall => absurd hall hcount.ne⟩

/-- After any complete requests and a save killed between two of its calls, a
read shows the document from before the save as long as the old file was not
removed, the saved one once the last message is written, and the empty document
in between. -/
theorem crash_outcomes (fs : Fs FileName) (h : (ep.current fs).isSome) (rs : List Request)
    (post read : Request) (hpost : ep.saves post.method = true)
    (hread : ep.saves read.method = false) (tr : List (Event FileName)) (q : Io (Reply V))
    (gs : Fs FileName) (hrun : Runs (ep.handler post) (ep.serve fs rs) tr q gs)
    (hok : ∀ e ∈ tr, e.fault = none) :
    let v := (ep.decoded post.body).value
    let shown := (run perform (ep.handler read) gs).1
    ((∀ e ∈ tr, ¬ Removed ep.key e) ∧
      shown = (run perform (ep.handler read) (ep.serve fs rs)).1) ∨
    ((∃ e ∈ tr, Removed ep.key e) ∧ stores tr < (ep.gob.messages v).length ∧
      shown = .document ep.zero) ∨
    (stores tr = (ep.gob.messages v).length ∧ shown = .document (ep.gob.canon v)) := by
  have hserved := ep.current_serve rs h
  obtain ⟨hle, hkept, hlost, hdone⟩ := ep.current_killed hserved hpost hrun hok
  dsimp only
  rw [ep.run_load gs hread, ep.run_load _ hread]
  by_cases hrem : ∃ e ∈ tr, Removed ep.key e
  · rcases hle.lt_or_eq with hlt | heq
    · exact Or.inr (Or.inl ⟨hrem, hlt, by simp [hlost hrem hlt]⟩)
    · exact Or.inr (Or.inr ⟨heq, by simp [hdone heq]⟩)
  · have hno : ∀ e ∈ tr, ¬ Removed ep.key e := fun e he hre => hrem ⟨e, he, hre⟩
    exact Or.inl ⟨hno, by simp [(hkept hno).1]⟩

theorem crash_outcomes_config :
    let ep := configEndpoint GoGob.configGob
    let fs := ep.serve (titled "first") [postConfig "second"]
    let p := ep.handler (postConfig "third")
    let shown := (run perform (ep.handler getRequest) (run perform p fs).2).1
    ((∀ e ∈ calls p fs, ¬ Removed ep.key e) ∧ shown = (run perform (ep.handler getRequest) fs).1) ∨
    ((∃ e ∈ calls p fs, Removed ep.key e) ∧
      stores (calls p fs) < (ep.gob.messages ⟨"third"⟩).length ∧ shown = .document ⟨""⟩) ∨
    (stores (calls p fs) = (ep.gob.messages ⟨"third"⟩).length ∧
      shown = .document (ep.gob.canon ⟨"third"⟩)) := by
  have h := crash_outcomes (configEndpoint GoGob.configGob) (titled "first")
    (by rw [current_titled]; rfl) [postConfig "second"] (postConfig "third") getRequest rfl rfl _ _ _
    (runs_perform _ _) (calls_fault _ _)
  rw [decoded_postConfig] at h
  exact h

theorem runs_update {post : Request} (hpost : ep.saves post.method = true) {fs hs gs : Fs FileName}
    {db : DB V} {tr : List (Event FileName)} {q : Io (DB V × Option Error)}
    (hopen : run perform (getDatabase ep.gob ep.database) fs = (db, hs))
    (h : Runs (update ep.gob db ep.key (ep.decoded post.body).value) hs tr q gs) :
    Runs (ep.handler post) fs (calls (getDatabase ep.gob ep.database) fs ++ tr)
      (q >>= fun _ => Prog.pure (.status "ok")) gs := by
  refine ((runs_clear hopen).bind _).trans ?_
  rw [pure_bind, if_pos hpost]
  exact h.bind _

theorem runs_to_remove {fs : Fs FileName} (h : (ep.current fs).isSome) (post : Request)
    (hpost : ep.saves post.method = true) :
    ∃ tr q, Runs (ep.handler post) fs tr q (fs.unlink ep.key) ∧ ∀ e ∈ tr, e.fault = none := by
  obtain ⟨w, hw⟩ := Option.isSome_iff_exists.mp h
  obtain ⟨i, hi⟩ := ep.file_of_current hw
  obtain ⟨d, hd⟩ := dir_of_entry hi
  obtain ⟨db, hopen, hlookup⟩ := ep.run_getDatabase Faults.clear fs ep.database
  rw [faulty_clear, opened_of_dir _ _ hd] at hopen
  have hdel := run_delete_file Faults.clear fs db (hlookup ep.key |>.trans hw) hi rfl
  rw [faulty_clear] at hdel
  refine ⟨_, _, ep.runs_update hpost hopen (Runs.bind (runs_clear hdel) _), ?_⟩
  exact List.forall_mem_append.mpr ⟨calls_fault _ _, calls_fault _ _⟩

/-- A title is lost when its replacement is killed behind the remove. -/
theorem config_title_lost :
    ∃ tr q gs, Runs (configHandler GoGob.configGob (postConfig "new")) (titled "old") tr q gs ∧
      (∀ e ∈ tr, e.fault = none) ∧
      (run perform (configHandler GoGob.configGob getRequest) (titled "old")).1 =
        .document ⟨"old"⟩ ∧
      (run perform (configHandler GoGob.configGob getRequest) gs).1 = .document ⟨""⟩ := by
  have hold := current_titled "old"
  obtain ⟨tr, q, hrun, hok⟩ := runs_to_remove (configEndpoint GoGob.configGob)
    (Option.isSome_of_eq_some hold) (postConfig "new") rfl
  refine ⟨tr, q, _, hrun, hok, ?_, ?_⟩
  · rw [configHandler, run_load _ _ rfl, hold]
    rfl
  · have hgone : ((titled "old").unlink (configEndpoint GoGob.configGob).key).entry
        (configEndpoint GoGob.configGob).key = none := by
      rw [Fs.entry_unlink, if_pos rfl]
    rw [configHandler, run_load _ _ rfl, current_of_absent _ hgone]
    rfl

theorem runs_to_create (fs : Fs FileName) {d : Dir FileName} (hd : fs.dir = some d)
    (he : fs.entry ep.key = none) (post : Request) (hpost : ep.saves post.method = true) :
    ∃ tr q, Runs (ep.handler post) fs tr q (fs.link d hd ep.key) ∧ ∀ e ∈ tr, e.fault = none := by
  obtain ⟨db, hopen, hlookup⟩ := ep.run_getDatabase Faults.clear fs ep.database
  rw [faulty_clear, opened_of_dir _ _ hd] at hopen
  have hkey : db.objectsMap.lookup ep.key = none :=
    (hlookup ep.key).trans (ep.current_of_absent he)
  have hdel := run_delete_absent Faults.clear fs db ep.key (Or.inl hkey)
  rw [faulty_clear] at hdel
  have hstat : respond none (.stat (.entry ep.key)) fs = (.error .notExist, fs) := by
    simp [respond, perform, he]
  have hcreate : respond none (.create ep.key) fs = (.ok ⟨fs.fresh, 0⟩, fs.link d hd ep.key) :=
    Fs.create_absent he hd
  have hput : ∃ q, Runs (put ep.gob db ep.key (ep.decoded post.body).value) fs
      ([event none (.stat (.entry ep.key)) fs] ++ [event none (.create ep.key) fs]) q
      (fs.link d hd ep.key) := by
    have hsecond := runs_call (.create ep.key)
      (encodeFile ep.gob db ep.key (ep.decoded post.body).value) none fs
    rw [hcreate] at hsecond
    rw [put_eq]
    refine ⟨encodeFile ep.gob db ep.key (ep.decoded post.body).value (.ok ⟨fs.fresh, 0⟩),
      (runs_call _ _ none fs).trans ?_⟩
    rw [hstat]
    exact hsecond
  obtain ⟨q, hq⟩ := hput
  refine ⟨_, _, ep.runs_update hpost hopen (((runs_clear hdel).bind _).trans hq), ?_⟩
  simp only [List.forall_mem_append]
  exact ⟨calls_fault _ _, calls_fault _ _, by simp [event]⟩

theorem stuck_after_create (fs : Fs FileName) {d : Dir FileName} (hd : fs.dir = some d) :
    ep.Stuck (fs.link d hd ep.key) := by
  have hentry : (fs.link d hd ep.key).entry ep.key = some (.file fs.fresh) := by
    rw [Fs.entry_link, if_pos rfl]
  have hempty : ep.gob.decode [] = none := by
    obtain ⟨b, todo, h⟩ := List.exists_cons_of_ne_nil (ep.gob.messages_ne ep.zero)
    have hsplit : ep.gob.messages ep.zero = [] ++ b :: todo := h
    simpa using ep.gob.decode_partial hsplit 0
  refine ⟨by simp [hentry], ?_⟩
  rw [current, stored, Fs.content_of_file hentry, data_link_fresh]
  exact hempty

/-- A request of which every encoding that was begun was finished. -/
def Whole (r : Request) (tr : List (Event FileName)) : Prop :=
  (∃ e ∈ tr, Created ep.key e) → stores tr = (ep.gob.messages (ep.decoded r.body).value).length

/-- The directories that requests can leave behind, each with any of its calls
failing and cut anywhere, when `P` holds of every one of them. -/
inductive Reached (P : Request → List (Event FileName) → Prop) (fs : Fs FileName) :
    Fs FileName → Prop
  | start : Reached P fs fs
  | request {r : Request} {tr : List (Event FileName)} {q : Io (Reply V)} {gs hs : Fs FileName} :
    Reached P fs gs → Runs (ep.handler r) gs tr q hs → P r tr → Reached P fs hs

theorem healthy_quiet {α : Type} {p q : Io α} {fs gs : Fs FileName} {tr : List (Event FileName)}
    (hrun : Runs p fs tr q gs) (htr : ∀ e ∈ tr, Quiet e) (h : ep.Healthy fs) : ep.Healthy gs := by
  by_cases hrem : ∃ e ∈ tr, Removed ep.key e
  · exact Or.inl (quiet_removed hrun ep.key htr hrem)
  · obtain ⟨hentry, hcontent⟩ :=
      quiet_kept hrun ep.key fun e he => ⟨htr e he, fun hre => hrem ⟨e, he, hre⟩⟩
    rcases h with habsent | hsome
    · exact Or.inl (hentry.trans habsent)
    · exact Or.inr (by rwa [ep.current_congr hcontent])

theorem healthy_request {r : Request} {fs gs : Fs FileName} {tr : List (Event FileName)}
    {q : Io (Reply V)} (h : ep.Healthy fs) (hrun : Runs (ep.handler r) fs tr q gs)
    (hwhole : ep.Whole r tr) : ep.Healthy gs := by
  cases hr : ep.saves r.method with
  | false =>
    exact ep.healthy_quiet hrun (fun e he => quiet_of_call (hrun.uses (ep.uses_load hr) e he)) h
  | true =>
    rcases ep.runs_save hr hrun with hquiet | ⟨hcreated, -, hencoded⟩
    · exact ep.healthy_quiet hrun hquiet h
    · rcases hencoded with ⟨-, ⟨-, hstored⟩ | ⟨hlt, -⟩⟩
      · exact Or.inr (by rw [current, hstored]; rfl)
      · exact absurd (hwhole hcreated) hlt.ne

theorem healthy_reached {fs gs : Fs FileName} (h : ep.Healthy fs)
    (hreach : ep.Reached ep.Whole fs gs) : ep.Healthy gs := by
  induction hreach with
  | start => exact h
  | request _ hrun hwhole ih => exact ep.healthy_request ih hrun hwhole

/-- An encoding that was begun and not finished leaves a stuck file. -/
theorem stuck_of_unfinished {r : Request} {fs gs : Fs FileName} {tr : List (Event FileName)}
    {q : Io (Reply V)} (hr : ep.saves r.method = true) (hrun : Runs (ep.handler r) fs tr q gs)
    (h : ¬ ep.Whole r tr) : ep.Stuck gs := by
  obtain ⟨⟨e, he, hcreated⟩, hcount⟩ := Classical.not_imp.mp h
  rcases ep.runs_save hr hrun with hquiet | ⟨-, -, hentry, hencoded⟩
  · have hq := hquiet e he
    simp [Quiet, hcreated.1, hcreated.2] at hq
  · rcases hencoded with ⟨hall, -⟩ | ⟨-, hstored⟩
    · exact absurd hall hcount
    · exact ⟨hentry, hstored⟩

theorem whole_of_current {r : Request} {fs gs : Fs FileName} {tr : List (Event FileName)}
    {q : Io (Reply V)} (hr : ep.saves r.method = true) (hrun : Runs (ep.handler r) fs tr q gs)
    (h : (ep.current gs).isSome) : ep.Whole r tr := by
  by_contra hno
  simp [(ep.stuck_of_unfinished hr hrun hno).2] at h

/-- As long as every encoding that was begun was finished, a later save that
meets no failure takes effect. -/
theorem save_takes_effect (fs : Fs FileName) (h : ep.Healthy fs) (gs : Fs FileName)
    (hreach : ep.Reached ep.Whole fs gs) (post read : Request)
    (hpost : ep.saves post.method = true) (hread : ep.saves read.method = false) :
    (run perform (ep.handler read) (run perform (ep.handler post) gs).2).1 =
      .document (ep.gob.canon (ep.decoded post.body).value) := by
  obtain ⟨hs, hrun, hcur⟩ := ep.run_save_clear gs hpost (ep.healthy_reached h hreach)
  rw [hrun, ep.run_load hs hread, hcur]
  rfl

theorem save_takes_effect_config :
    let ep := configEndpoint GoGob.configGob
    (run perform (ep.handler getRequest)
      (run perform (ep.handler (postConfig "mesh")) (titled "first")).2).1 =
      .document (ep.gob.canon ⟨"mesh"⟩) := by
  have hwhole := whole_of_current (configEndpoint GoGob.configGob) (r := postConfig "first") rfl
    (runs_perform _ Fs.empty) (Option.isSome_of_eq_some (current_titled "first"))
  have h := save_takes_effect (configEndpoint GoGob.configGob) Fs.empty (healthy_empty _)
    (titled "first") (.request .start (runs_perform _ _) hwhole) (postConfig "mesh") getRequest rfl rfl
  rw [decoded_postConfig] at h
  exact h

/-- A title cannot be saved any more after a first save was killed behind its
create. -/
theorem config_stuck_after_crash :
    ∃ gs, (configEndpoint GoGob.configGob).Reached (fun _ _ => True) Fs.empty gs ∧
      (run perform (configHandler GoGob.configGob getRequest)
        (run perform (configHandler GoGob.configGob (postConfig "mesh")) gs).2).1 =
        .document ⟨""⟩ := by
  obtain ⟨tr, q, hrun, -⟩ := runs_to_create (configEndpoint GoGob.configGob)
    Fs.empty rfl rfl (postConfig "first") rfl
  have hstuck := stuck_after_create (configEndpoint GoGob.configGob) Fs.empty rfl
  refine ⟨_, .request .start hrun trivial, ?_⟩
  rw [configHandler, run_save_stuck _ _ rfl hstuck, run_load _ _ rfl, hstuck.2]
  rfl

end Endpoint
end NexFi.StoreHandlers
