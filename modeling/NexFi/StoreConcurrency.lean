import NexFi.StoreInterleaving
import NexFi.StoreReplies

/-!
# Any number of requests at once

Each request runs the handler with a database of its own, and the scheduler may
switch between any two calls. No save is lost to one that had ended before it
began, and a reader sees nothing but whole documents, though it may see none
while a save is under way.
-/

namespace NexFi.StoreHandlers
open Posix Prog StoreDB GoJson

variable {V ι : Type} [DecidableEq ι]

namespace Endpoint
variable (ep : Endpoint V) (req : ι → Request) (fs₀ : Fs FileName)

def start : World FileName ι (Reply V) := ⟨fs₀, fun i => ep.handler (req i)⟩

def board : Board FileName ι (Phase V) := ⟨fs₀, fun _ => .statExists⟩

def phasesAfter (schedule : List ι) : Board FileName ι (Phase V) :=
  (board fs₀).runAll (ep.Step req) schedule

def Ended (schedule : List ι) (i : ι) : Prop := ((ep.phasesAfter req fs₀ schedule).phases i).Finished

omit [DecidableEq ι] in
theorem shows_start : Shows (ep.Step req) (board fs₀) (ep.start req fs₀) where
  fs := rfl
  follows i := ep.follows_handler (req i)

theorem shows_after (schedule : List ι) :
    Shows (ep.Step req) (ep.phasesAfter req fs₀ schedule) ((ep.start req fs₀).runAll schedule) :=
  (ep.shows_start req fs₀).runAll schedule

theorem move_done {r : Request} {p : Phase V} {reply : Reply V} (h : ep.move r p = .done reply) :
    p = .finished reply := by
  cases p with
  | finished reply' =>
    cases h
    rfl
  | _ => cases h

theorem returned_iff (schedule : List ι) (i : ι) (reply : Reply V) :
    ((ep.start req fs₀).runAll schedule).Returned i reply ↔
      (ep.phasesAfter req fs₀ schedule).phases i = .finished reply := by
  rw [(ep.shows_after req fs₀ schedule).returned]
  constructor
  · exact ep.move_done
  · intro h
    rw [h]
    rfl

theorem finished_iff (schedule : List ι) (i : ι) :
    ((ep.start req fs₀).runAll schedule).Finished i ↔ ep.Ended req fs₀ schedule i := by
  constructor
  · rintro ⟨reply, h⟩
    rw [Ended, (ep.returned_iff req fs₀ schedule i reply).mp h]
    trivial
  · intro h
    cases hp : (ep.phasesAfter req fs₀ schedule).phases i with
    | finished reply => exact ⟨reply, (ep.returned_iff req fs₀ schedule i reply).mpr hp⟩
    | _ => simp [Ended, hp, Phase.Finished] at h

variable {ep fs₀}

theorem inv_run (h : ep.Healthy fs₀) (i₀ : ι) (schedule : List ι) :
    ∃ img opener, ep.Inv req fs₀ (Precedes (ep.Ended req fs₀) schedule) schedule
      (ep.phasesAfter req fs₀ schedule) img opener := by
  induction schedule using List.reverseRecOn with
  | nil =>
    refine ⟨fun _ => .truncated, fun _ => i₀, inv_start h ?_ _ _⟩
    rintro i j ⟨pre, post, hsplit, hended, -⟩
    obtain ⟨rfl, -⟩ := List.append_eq_nil_iff.mp hsplit.symm
    exact hended
  | append_singleton schedule i ih =>
    obtain ⟨img, opener, hinv⟩ := ih
    have hstep : ep.phasesAfter req fs₀ (schedule ++ [i]) =
        (ep.phasesAfter req fs₀ schedule).step (ep.Step req) i := Board.runAll_snoc _ _ _ _
    rw [hstep]
    refine hinv.inv_step h i fun r s hrs => ?_
    have hsplit := precedes_snoc hrs
    rwa [Ended, hstep] at hsplit

variable {req}

omit [DecidableEq ι] in
/-- When all requests have ended the file is linked, whole, and owned by a save
that no later one follows. -/
theorem Inv.ended {prec : ι → ι → Prop} {begun : List ι} {b : Board FileName ι (Phase V)}
    {img : Images ι ep} {opener : ℕ → ι} (h : ep.Inv req fs₀ prec begun b img opener) {i : ι}
    (hi : ep.Saves req i) (hall : ∀ i, (b.phases i).Finished) :
    ∃ r, ep.Saves req r ∧ ep.current b.fs = some (ep.gob.canon (ep.value req r)) ∧
      ∀ s, ep.Saves req s → ¬ prec r s := by
  have hlate : ∀ j, ¬ (b.phases j).Early ep.key := by
    intro j hj
    have hfin := hall j
    cases hp : b.phases j <;> simp_all [Phase.Finished, Phase.Early]
  cases he : b.fs.entry ep.key with
  | none =>
    rcases h.absent he with ⟨j, hj⟩ | ⟨-, hunread⟩
    · have hfin := hall j
      cases hp : b.phases j <;> simp_all [Phase.Finished, Phase.Placing]
    · have hfin := hall i
      have hi' := hunread i hi
      cases hp : b.phases i <;> simp_all [Phase.Finished, Phase.Unread]
  | some e =>
    obtain ⟨n, rfl⟩ := h.file e he
    have hn := h.new_of_late hi (hlate i) he
    obtain ⟨r, rest, hl, hr, -, hcur⟩ := h.current_new hn he (hall _)
    exact ⟨r, hr, hcur, fun s hs hrs => hlate s (h.settled n hn he (hall _) r rest hl s hs hrs)⟩

/-- However the requests are interleaved, once all have ended the document is
that of a save after whose end no other save began. -/
theorem no_save_lost (ep : Endpoint V) (req : ι → Request) (fs₀ : Fs FileName)
    (h : ep.Healthy fs₀) (hsaves : ∃ i, ep.Saves req i) (schedule : List ι)
    (hall : ∀ i, ((ep.start req fs₀).runAll schedule).Finished i) :
    ∃ r, ep.Saves req r ∧
      ep.current ((ep.start req fs₀).runAll schedule).fs =
        some (ep.gob.canon (ep.value req r)) ∧
      ∀ s, ep.Saves req s →
        ¬ Precedes (fun pre => ((ep.start req fs₀).runAll pre).Finished) schedule r s := by
  obtain ⟨i, hi⟩ := hsaves
  obtain ⟨img, opener, hinv⟩ := inv_run req h i schedule
  have hprec : (fun pre => ((ep.start req fs₀).runAll pre).Finished) = ep.Ended req fs₀ :=
    funext fun pre => funext fun j => propext (ep.finished_iff req fs₀ pre j)
  rw [hprec, ← (ep.shows_after req fs₀ schedule).fs]
  exact hinv.ended hi fun j => (ep.finished_iff req fs₀ schedule j).mp (hall j)

def twoSaves (i : Bool) : Request := if i then postConfig "one" else postConfig "two"

def inTurn : List Bool := (List.replicate 7 [true, false]).flatten

theorem no_save_lost_config :
    let ep := configEndpoint GoGob.configGob
    ∃ r, ep.Saves twoSaves r ∧
      ep.current ((ep.start twoSaves Fs.empty).runAll inTurn).fs =
        some (ep.gob.canon (ep.value twoSaves r)) ∧
      ∀ s, ep.Saves twoSaves s →
        ¬ Precedes (fun pre => ((ep.start twoSaves Fs.empty).runAll pre).Finished) inTurn r s :=
  no_save_lost (configEndpoint GoGob.configGob) twoSaves Fs.empty (healthy_empty _) ⟨true, rfl⟩ inTurn
    fun i => by cases i <;> exact ⟨.status "ok", rfl⟩

/-- `s` began before some step of `g`. -/
def BeganBefore (done : List ι → ι → Prop) (schedule : List ι) (s g : ι) : Prop :=
  ∃ pre post, schedule = pre ++ g :: post ∧ ¬ done pre g ∧ s ∈ pre

/-- At some step of `g` the request `s` had begun and was not finished. -/
def UnderWay (done : List ι → ι → Prop) (schedule : List ι) (s g : ι) : Prop :=
  ∃ pre post, schedule = pre ++ g :: post ∧ ¬ done pre g ∧ s ∈ pre ∧ ¬ done pre s

omit [DecidableEq ι] in
theorem BeganBefore.snoc {done : List ι → ι → Prop} {schedule : List ι} {s g : ι}
    (h : BeganBefore done schedule s g) (i : ι) : BeganBefore done (schedule ++ [i]) s g := by
  obtain ⟨pre, post, rfl, hs⟩ := h
  exact ⟨pre, post ++ [i], by simp, hs⟩

omit [DecidableEq ι] in
theorem UnderWay.snoc {done : List ι → ι → Prop} {schedule : List ι} {s g : ι}
    (h : UnderWay done schedule s g) (i : ι) : UnderWay done (schedule ++ [i]) s g := by
  obtain ⟨pre, post, rfl, hs⟩ := h
  exact ⟨pre, post ++ [i], by simp, hs⟩

/-- A reader that has seen only what `S` allows, and nothing only if `M`. -/
def Reads (ep : Endpoint V) (S : V → Prop) (M : Prop) : Phase V → Prop
  | .statExists => True
  | .statIsDir => True
  | .mkdir => True
  | .list => True
  | .load db file files => (∀ v, db.objectsMap.lookup ep.key = some v → S v) ∧
    (db.objectsMap.lookup ep.key = none → ep.key ∈ file :: files ∨ M)
  | .finished reply => ∃ v, reply = .document v ∧ (S v ∨ (v = ep.zero ∧ M))
  | _ => False

theorem Reads.mono {S S' : V → Prop} {M M' : Prop} (hS : ∀ v, S v → S' v) (hM : M → M')
    {p : Phase V} (h : ep.Reads S M p) : ep.Reads S' M' p := by
  cases p with
  | load db file files =>
    exact ⟨fun v hv => hS v (h.1 v hv), fun hnone => (h.2 hnone).imp_right hM⟩
  | finished reply =>
    obtain ⟨v, hreply, hv⟩ := h
    exact ⟨v, hreply, hv.imp (hS v) fun hz => ⟨hz.1, hM hz.2⟩⟩
  | _ => exact h

theorem reads_loading {r : Request} (hr : ep.saves r.method = false) {S : V → Prop} {M : Prop}
    {db : DB V} {files : List FileName} (hS : ∀ v, db.objectsMap.lookup ep.key = some v → S v)
    (hM : db.objectsMap.lookup ep.key = none → ep.key ∈ files ∨ M) :
    ep.Reads S M (ep.loading r db files) := by
  cases files with
  | cons file files => exact ⟨hS, hM⟩
  | nil =>
    simp only [loading, afterInit, hr, Bool.false_eq_true, if_false]
    refine ⟨_, rfl, ?_⟩
    cases hl : db.objectsMap.lookup ep.key with
    | some v => exact Or.inl (by simpa [StoreDB.get, hl] using hS v hl)
    | none => exact Or.inr ⟨by simp [StoreDB.get, hl], (hM hl).resolve_left (by simp)⟩

theorem reads_step {r : Request} (hr : ep.saves r.method = false) {p : Phase V}
    {c : Call FileName} {next : c.Reply → Phase V} (hmove : ep.move r p = .call c next)
    {fs : Fs FileName} (hready : fs.dir.isSome ∨ p = .statExists ∨ p = .mkdir) {S : V → Prop}
    {M : Prop} (hS : ∀ v, ep.current fs = some v → S v) (hM : ep.current fs = none → M)
    (hp : ep.Reads S M p) : ep.Reads S M (next (perform c fs).1) := by
  cases p with
  | statExists =>
    cases hmove
    dsimp only
    split_ifs <;> trivial
  | statIsDir =>
    cases hmove
    rw [isDirSeen_dir (hready.resolve_right (by simp))]
    trivial
  | mkdir =>
    cases hmove
    trivial
  | list =>
    cases hmove
    obtain ⟨d, hd⟩ := Option.isSome_iff_exists.mp (hready.resolve_right (by simp))
    rw [ep.listed_names r hd]
    refine reads_loading hr (fun v hv => by simp [newDB] at hv) fun _ => ?_
    cases hcur : ep.current fs with
    | none => exact Or.inr (hM hcur)
    | some v => exact Or.inl ((mem_names fs hd ep.key).mpr (ep.file_of_current hcur))
  | load db file files =>
    cases hmove
    refine reads_loading hr (fun v hv => ?_) fun hnone => ?_
    · rw [lookup_loadedFile] at hv
      split_ifs at hv
      · rcases Option.or_eq_some_iff.mp hv with hcur | ⟨-, hold⟩
        · exact hS v hcur
        · exact hp.1 v hold
      · exact hp.1 v hv
    · rw [lookup_loadedFile] at hnone
      split_ifs at hnone with hkey
      · exact Or.inr (hM (Option.or_eq_none_iff.mp hnone).1)
      · exact (hp.2 hnone).imp_left fun hmem => (List.mem_cons.mp hmem).resolve_left (Ne.symm hkey)
  | finished reply => cases hmove
  | _ => exact hp.elim

def Seen (ep : Endpoint V) (req : ι → Request) (fs₀ : Fs FileName) (v₀ : V) (g : ι)
    (schedule : List ι) (v : V) : Prop :=
  v = v₀ ∨ ∃ s, ep.Saves req s ∧ BeganBefore (ep.Ended req fs₀) schedule s g ∧
    v = ep.gob.canon (ep.value req s)

def Missed (ep : Endpoint V) (req : ι → Request) (fs₀ : Fs FileName) (g : ι)
    (schedule : List ι) : Prop :=
  ∃ s, ep.Saves req s ∧ UnderWay (ep.Ended req fs₀) schedule s g

theorem reads_run {v₀ : V} (hv₀ : ep.current fs₀ = some v₀) {g : ι} (hg : ¬ ep.Saves req g)
    (schedule : List ι) :
    ep.Reads (ep.Seen req fs₀ v₀ g schedule) (ep.Missed req fs₀ g schedule)
      ((ep.phasesAfter req fs₀ schedule).phases g) := by
  have hhealthy : ep.Healthy fs₀ := Or.inr (by simp [hv₀])
  induction schedule using List.reverseRecOn with
  | nil => trivial
  | append_singleton schedule i ih =>
    obtain ⟨img, opener, hinv⟩ := inv_run req hhealthy g schedule
    have hstep : ep.phasesAfter req fs₀ (schedule ++ [i]) =
        (ep.phasesAfter req fs₀ schedule).step (ep.Step req) i := Board.runAll_snoc _ _ _ _
    have hkept : ep.Reads (ep.Seen req fs₀ v₀ g (schedule ++ [i]))
        (ep.Missed req fs₀ g (schedule ++ [i])) ((ep.phasesAfter req fs₀ schedule).phases g) :=
      ih.mono (fun v hv => hv.imp_right fun ⟨s, hs, hb, hval⟩ => ⟨s, hs, hb.snoc i, hval⟩)
        fun ⟨s, hs, hu⟩ => ⟨s, hs, hu.snoc i⟩
    rw [hstep]
    by_cases hgi : g = i
    · subst hgi
      have hbegun : ∀ s, (ep.phasesAfter req fs₀ schedule).phases s ≠ .statExists → s ∈ schedule :=
        fun s hs => by_contra fun hno => hs (hinv.idle s hno)
      cases hmove : ep.Step req g ((ep.phasesAfter req fs₀ schedule).phases g) with
      | done reply =>
        rw [Board.step_done (ep.Step req) hmove]
        exact hkept
      | call c next =>
        have hactive : ¬ ep.Ended req fs₀ schedule g := by
          intro hended
          cases hp : (ep.phasesAfter req fs₀ schedule).phases g with
          | finished reply => simp [hp, move] at hmove
          | _ => simp [Ended, hp, Phase.Finished] at hended
        rw [Board.step_self (ep.Step req) hmove]
        refine reads_step (by simpa [Saves] using hg) hmove (hinv.ready g) (fun v hv => ?_)
          (fun hnone => ?_) hkept
        · rcases hinv.current_some hv with hold | ⟨s, hs, hfin, hval⟩
          · exact Or.inl (Option.some.inj (hold.symm.trans hv₀))
          · refine Or.inr ⟨s, hs, ⟨schedule, [], rfl, hactive, hbegun s ?_⟩, hval⟩
            intro hp
            rw [hp] at hfin
            exact hfin
        · obtain ⟨s, hs, hbeg, hopen⟩ := (hinv.current_none hhealthy hnone).resolve_left
            fun he => by simp [ep.current_of_absent he] at hv₀
          exact ⟨s, hs, schedule, [], rfl, hactive, hbegun s hbeg, hopen⟩
    · rw [Board.step_other (ep.Step req) _ hgi]
      exact hkept

/-- A read returns the original document, or that of a save that began before
the read ended, or the empty document where a save was under way at one of the
read's steps. -/
theorem read_outcomes (ep : Endpoint V) (req : ι → Request) (fs₀ : Fs FileName) (v₀ : V)
    (hv₀ : ep.current fs₀ = some v₀) (schedule : List ι) (g : ι) (hg : ¬ ep.Saves req g)
    (reply : Reply V) (hreply : ((ep.start req fs₀).runAll schedule).Returned g reply) :
    let done := fun pre => ((ep.start req fs₀).runAll pre).Finished
    ∃ v, reply = .document v ∧
      (v = v₀ ∨
      (∃ s, ep.Saves req s ∧ BeganBefore done schedule s g ∧ v = ep.gob.canon (ep.value req s)) ∨
      (v = ep.zero ∧ ∃ s, ep.Saves req s ∧ UnderWay done schedule s g)) := by
  have hreads := reads_run hv₀ hg schedule
  rw [(ep.returned_iff req fs₀ schedule g reply).mp hreply] at hreads
  have hdone : (fun pre => ((ep.start req fs₀).runAll pre).Finished) = ep.Ended req fs₀ :=
    funext fun pre => funext fun j => propext (ep.finished_iff req fs₀ pre j)
  obtain ⟨v, hv, hseen⟩ := hreads
  dsimp only
  rw [hdone]
  exact ⟨v, hv, or_assoc.mp hseen⟩

def saveAndRead (i : Bool) : Request := if i then postConfig "new" else getRequest

/-- The read lists the directory right after the save removed the file. -/
def hastySchedule : List Bool :=
  [false, false, true, true, true, true, true, true, false]

theorem read_outcomes_config :
    let ep := configEndpoint GoGob.configGob
    let done := fun pre => ((ep.start saveAndRead (titled "old")).runAll pre).Finished
    ∃ v, (Reply.document ⟨""⟩ : Reply ConfigData) = .document v ∧
      (v = ⟨"old"⟩ ∨
      (∃ s, ep.Saves saveAndRead s ∧ BeganBefore done hastySchedule s false ∧
        v = ep.gob.canon (ep.value saveAndRead s)) ∨
      (v = ep.zero ∧ ∃ s, ep.Saves saveAndRead s ∧ UnderWay done hastySchedule s false)) :=
  read_outcomes (configEndpoint GoGob.configGob) saveAndRead (titled "old") ⟨"old"⟩
    (current_titled "old") hastySchedule false (by unfold Saves; decide) (.document ⟨""⟩) rfl

/-- Between the remove and the create a reader gets an empty title, which nobody
saved. -/
theorem config_title_vanishes :
    let ep := configEndpoint GoGob.configGob
    ep.current (titled "old") = some ⟨"old"⟩ ∧
    (∀ s, ep.Saves saveAndRead s → ep.value saveAndRead s = ⟨"new"⟩) ∧
    ((ep.start saveAndRead (titled "old")).runAll hastySchedule).Returned false
      (.document ⟨""⟩) := by
  refine ⟨current_titled "old", fun s hs => ?_, rfl⟩
  cases s with
  | false => cases hs
  | true => rw [value, saveAndRead, if_pos rfl, decoded_postConfig]

end Endpoint
end NexFi.StoreHandlers
