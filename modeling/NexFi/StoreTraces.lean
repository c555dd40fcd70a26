import NexFi.StoreReplies

/-!
# The traces of cut requests

A request is cut after any number of calls, any of which may have failed. Only
three calls matter for the document: the remove, the create and the writes. The
trace of a cut request says how many of them were made.
-/

namespace NexFi.StoreHandlers
open Posix Prog StoreDB GoJson

/-- A call after which no file is new and no content has changed. -/
def Quiet (e : Event FileName) : Prop :=
  match e.call with
  | .create _ => e.ok = false
  | .write _ _ => False
  | _ => True

def Removed (key : FileName) (e : Event FileName) : Prop := e.call = .remove key ∧ e.ok = true

def Created (key : FileName) (e : Event FileName) : Prop := e.call = .create key ∧ e.ok = true

def isStore (e : Event FileName) : Bool :=
  match e.call with
  | .write _ _ => e.ok
  | _ => false

/-- The number of messages written by a run. -/
def stores (tr : List (Event FileName)) : ℕ := (tr.filter isStore).length

theorem stores_append (s t : List (Event FileName)) : stores (s ++ t) = stores s + stores t := by
  simp [stores]

theorem stores_of_quiet {tr : List (Event FileName)} (h : ∀ e ∈ tr, Quiet e) : stores tr = 0 := by
  rw [stores, List.length_eq_zero_iff, List.filter_eq_nil_iff]
  intro e he hs
  have hq := h e he
  unfold isStore at hs
  unfold Quiet at hq
  split at hs
  · next heq => simp [heq] at hq
  · cases hs

theorem create_error {fs : Fs FileName} {n : FileName} (h : (fs.create n).1.isOk = false) :
    (fs.create n).2 = fs := by
  cases he : fs.entry n with
  | none =>
    cases hd : fs.dir with
    | none => rw [Fs.create_missing hd]
    | some d =>
      rw [Fs.create_absent he hd] at h
      cases h
  | some e =>
    cases e with
    | file i =>
      rw [Fs.create_file he] at h
      cases h
    | subdir b => simp [Fs.create, he]

theorem remove_state (fs : Fs FileName) (n : FileName) :
    ((fs.remove n).1.isOk = false ∧ (fs.remove n).2 = fs) ∨
    ((fs.remove n).1.isOk = true ∧ (fs.remove n).2 = fs.unlink n) := by
  unfold Fs.remove
  split
  · exact Or.inl ⟨rfl, rfl⟩
  · exact Or.inl ⟨rfl, rfl⟩
  · exact Or.inr ⟨rfl, rfl⟩

theorem quiet_step (key : FileName) (fault : Option ℕ) (c : Call FileName) (fs : Fs FileName)
    (h : Quiet (event fault c fs)) :
    (Removed key (event fault c fs) ∧ (respond fault c fs).2.entry key = none) ∨
    ((respond fault c fs).2.entry key = fs.entry key ∧
      (respond fault c fs).2.content key = fs.content key) := by
  cases fault with
  | some n =>
    cases c with
    | write f b => exact h.elim
    | _ => exact Or.inr ⟨rfl, rfl⟩
  | none =>
    cases c with
    | stat p => cases p <;> exact Or.inr ⟨rfl, rfl⟩
    | mkdirAll => exact Or.inr ⟨Fs.entry_mkdirAll fs key, Fs.content_mkdirAll fs key⟩
    | readDir => exact Or.inr ⟨rfl, rfl⟩
    | readFile n => exact Or.inr ⟨rfl, rfl⟩
    | write f b => exact h.elim
    | create n =>
      have hsame : (respond none (.create n) fs).2 = fs := create_error h
      rw [hsame]
      exact Or.inr ⟨rfl, rfl⟩
    | remove n =>
      change (Removed key _ ∧ (fs.remove n).2.entry key = none) ∨
        ((fs.remove n).2.entry key = fs.entry key ∧ (fs.remove n).2.content key = fs.content key)
      rcases remove_state fs n with ⟨-, hs⟩ | ⟨hok, hs⟩
      · rw [hs]
        exact Or.inr ⟨rfl, rfl⟩
      · rw [hs]
        by_cases hn : key = n
        · subst hn
          exact Or.inl ⟨⟨rfl, hok⟩, by rw [Fs.entry_unlink, if_pos rfl]⟩
        · exact Or.inr ⟨by rw [Fs.entry_unlink, if_neg hn], by rw [Fs.content_unlink, if_neg hn]⟩

theorem entry_removed {key : FileName} {fault : Option ℕ} {c : Call FileName} {fs : Fs FileName}
    (h : Removed key (event fault c fs)) : (respond fault c fs).2.entry key = none := by
  obtain ⟨hcall, hok⟩ := h
  obtain rfl : c = .remove key := hcall
  cases fault with
  | some n => cases hok
  | none =>
    rcases remove_state fs key with ⟨hbad, -⟩ | ⟨-, hs⟩
    · exact absurd (hbad.symm.trans hok) (by simp)
    · change (fs.remove key).2.entry key = none
      rw [hs, Fs.entry_unlink, if_pos rfl]

section QuietRuns
variable {α : Type} {p q : Io α} {fs gs : Fs FileName} {tr : List (Event FileName)}

theorem quiet_kept (h : Runs p fs tr q gs) (key : FileName)
    (htr : ∀ e ∈ tr, Quiet e ∧ ¬ Removed key e) :
    gs.entry key = fs.entry key ∧ gs.content key = fs.content key := by
  refine h.invariant (fun hs => hs.entry key = fs.entry key ∧ hs.content key = fs.content key)
    (fun e => Quiet e ∧ ¬ Removed key e) ⟨rfl, rfl⟩ ?_ htr
  rintro fault c hs ⟨he, hc⟩ ⟨hq, hr⟩
  rcases quiet_step key fault c hs hq with ⟨hrem, -⟩ | ⟨he', hc'⟩
  · exact absurd hrem hr
  · exact ⟨he'.trans he, hc'.trans hc⟩

theorem quiet_absent (h : Runs p fs tr q gs) (key : FileName) (htr : ∀ e ∈ tr, Quiet e)
    (hfs : fs.entry key = none) : gs.entry key = none := by
  refine h.invariant (fun hs => hs.entry key = none) Quiet hfs ?_ htr
  intro fault c hs hnone hq
  rcases quiet_step key fault c hs hq with ⟨-, he⟩ | ⟨he, -⟩
  · exact he
  · exact he.trans hnone

theorem quiet_removed (h : Runs p fs tr q gs) (key : FileName) (htr : ∀ e ∈ tr, Quiet e)
    (hrem : ∃ e ∈ tr, Removed key e) : gs.entry key = none := by
  induction h with
  | stop =>
    obtain ⟨e, he, -⟩ := hrem
    cases he
  | @step c k fs gs q tr fault hruns ih =>
    have htail : ∀ e ∈ tr, Quiet e := fun e he => htr e (List.mem_cons_of_mem _ he)
    obtain ⟨e, he, hre⟩ := hrem
    rcases List.mem_cons.mp he with rfl | he
    · exact quiet_absent hruns key htail (entry_removed hre)
    · exact ih htail ⟨e, he, hre⟩

end QuietRuns

theorem create_ok {fs hs : Fs FileName} {key : FileName} {f : OpenFile}
    (h : fs.create key = (.ok f, hs)) :
    f.offset = 0 ∧ hs.entry key = some (.file f.inode) ∧ hs.data f.inode = [] := by
  cases he : fs.entry key with
  | none =>
    cases hd : fs.dir with
    | none =>
      rw [Fs.create_missing hd] at h
      cases h
    | some d =>
      rw [Fs.create_absent he hd] at h
      cases h
      exact ⟨rfl, by rw [Fs.entry_link, if_pos rfl], data_link_fresh fs d hd key⟩
  | some e =>
    cases e with
    | file i =>
      rw [Fs.create_file he] at h
      cases h
      exact ⟨rfl, he, Fs.data_setData fs i []⟩
    | subdir b =>
      simp only [Fs.create, he] at h
      cases h

/-- A cut `Encode`: all messages are in the file, or a proper part of them. -/
theorem runs_writeAll {bs : List Bytes} {f : OpenFile} {fs gs : Fs FileName}
    {tr : List (Event FileName)} {q : Io (Option Error)} (h : Runs (writeAll f bs) fs tr q gs)
    (hlen : (fs.data f.inode).length = f.offset) :
    ∃ b, gs = fs.setData f.inode (fs.data f.inode ++ b) ∧
      ((stores tr = bs.length ∧ b = bs.flatten) ∨
      (stores tr < bs.length ∧
        ∃ done c todo n, bs = done ++ c :: todo ∧ b = done.flatten ++ c.dropLast.take n)) := by
  induction bs generalizing f fs tr with
  | nil =>
    obtain ⟨rfl, -, rfl⟩ := runs_pure h
    exact ⟨[], by simp [Fs.setData_self], Or.inl ⟨rfl, rfl⟩⟩
  | cons c bs ih =>
    cases h with
    | stop =>
      exact ⟨[], by simp [Fs.setData_self], Or.inr ⟨by simp [stores], [], c, bs, 0, rfl, by simp⟩⟩
    | step fault h =>
      cases fault with
      | some n =>
        obtain ⟨rfl, -, rfl⟩ := runs_pure h
        refine ⟨c.dropLast.take n, ?_, Or.inr ⟨?_, [], c, bs, n, rfl, rfl⟩⟩
        · simp [respond, fail, Fs.write_end hlen]
        · simp [stores, isStore, event, respond, fail, Except.isOk, Except.toBool]
      | none =>
        have hwrite := Fs.write_end hlen c
        simp only [respond, perform, hwrite] at h
        obtain ⟨b, rfl, hb⟩ := ih h (by simp [hlen])
        have hcount : ∀ t, stores (event none (.write f c) fs :: t) = stores t + 1 := fun t => rfl
        refine ⟨c ++ b, by simp [Fs.setData_setData], ?_⟩
        rcases hb with ⟨hs, rfl⟩ | ⟨hs, done, x, todo, n, rfl, rfl⟩
        · exact Or.inl ⟨by rw [hcount, hs, List.length_cons], rfl⟩
        · refine Or.inr ⟨?_, c :: done, x, todo, n, rfl, by simp⟩
          rw [hcount, List.length_cons]
          omega

section Put
variable {V : Type} {G : Gob V}

def encodeFile (G : Gob V) (db : DB V) (key : FileName) (v : V) :
    Except Errno OpenFile → Io (DB V × Option Error)
  | .error e => .pure (db, some (.os e))
  | .ok file => writeAll file (G.messages v) >>= fun err =>
    match err with
    | some e => .pure (db, some e)
    | none => .pure ({ db with objectsMap := db.objectsMap.insert key v }, none)

def createFile (G : Gob V) (db : DB V) (key : FileName) (v : V) : Io (DB V × Option Error) :=
  .call (.create key) (encodeFile G db key v)

theorem put_eq (db : DB V) (key : FileName) (v : V) :
    put G db key v = .call (.stat (.entry key)) fun found =>
      if found.isOk then .pure (db, some (.text "file already exists"))
      else createFile G db key v := by
  refine congrArg (Prog.call _) (funext fun found => ?_)
  cases found with
  | error e => exact congrArg (Prog.call _) (funext fun made => by cases made <;> rfl)
  | ok b => rfl

/-- What a run that got as far as creating the file says about it: the number
of its writes decides whether the file decodes. -/
def Encoded (G : Gob V) (key : FileName) (v : V) (tr : List (Event FileName))
    (gs : Fs FileName) : Prop :=
  (gs.entry key).isSome ∧
  ((stores tr = (G.messages v).length ∧ stored gs G key = some (G.canon v)) ∨
  (stores tr < (G.messages v).length ∧ stored gs G key = none))

theorem runs_createFile {db : DB V} {key : FileName} {v : V} {fs gs : Fs FileName}
    {tr : List (Event FileName)} {q : Io (DB V × Option Error)}
    (h : Runs (createFile G db key v) fs tr q gs) :
    (∀ e ∈ tr, Quiet e) ∨ ((∃ e ∈ tr, Created key e) ∧ Encoded G key v tr gs) := by
  cases h with
  | stop => exact Or.inl (by simp)
  | @step _ _ _ _ _ tr fault h =>
    cases hmade : respond fault (.create key) fs with
    | mk made hs =>
      rw [hmade] at h
      cases made with
      | error e =>
        obtain ⟨rfl, -, -⟩ := runs_pure h
        refine Or.inl ?_
        simp [Quiet, event, hmade, Except.isOk, Except.toBool]
      | ok f =>
        obtain rfl : fault = none := by
          cases fault with
          | none => rfl
          | some n => cases hmade
        obtain ⟨hoff, hentry, hdata⟩ := create_ok hmade
        have hcreated : Created key (event none (.create key) fs) :=
          ⟨rfl, by simp [event, hmade, Except.isOk, Except.toBool]⟩
        refine Or.inr ⟨⟨_, List.mem_cons_self, hcreated⟩, ?_⟩
        have hwrites : ∃ q', Runs (writeAll f (G.messages v)) hs tr q' gs := by
          rcases runs_bind h with ⟨q', hq, -⟩ | ⟨a, gs', t₁, t₂, rfl, hq, hrest⟩
          · exact ⟨q', hq⟩
          · cases a <;>
            · obtain ⟨rfl, -, rfl⟩ := runs_pure hrest
              exact ⟨_, by simpa using hq⟩
        obtain ⟨q', hq⟩ := hwrites
        obtain ⟨b, rfl, hb⟩ := runs_writeAll hq (by rw [hdata, hoff]; rfl)
        have hstored : stored (hs.setData f.inode (hs.data f.inode ++ b)) G key = G.decode b := by
          simp [stored, Fs.content_setData hentry, hdata]
        have hcount : ∀ t, stores (event none (.create key) fs :: t) = stores t := fun t => rfl
        rw [Encoded, hcount, hstored]
        refine ⟨by simp [hentry], ?_⟩
        rcases hb with ⟨hs', rfl⟩ | ⟨hs', done, x, todo, n, hsplit, rfl⟩
        · exact Or.inl ⟨hs', by rw [G.messages_flatten, G.decode_stream]⟩
        · exact Or.inr ⟨hs', G.decode_partial hsplit n⟩

/-- A cut `Put` creates the file on an absent key, unless a fault hid the old
one from its test. -/
theorem runs_put {db : DB V} {key : FileName} {v : V} {fs gs : Fs FileName}
    {tr : List (Event FileName)} {q : Io (DB V × Option Error)}
    (h : Runs (put G db key v) fs tr q gs) :
    (∀ e ∈ tr, Quiet e) ∨
    ((∃ e ∈ tr, Created key e) ∧ ((∀ e ∈ tr, e.fault = none) → fs.entry key = none) ∧
      Encoded G key v tr gs) := by
  rw [put_eq] at h
  cases h with
  | stop => exact Or.inl (by simp)
  | @step _ _ _ _ _ tr fault h =>
    have hquiet : Quiet (event fault (.stat (.entry key)) fs) := trivial
    have hstate : (respond fault (.stat (.entry key)) fs).2 = fs := by cases fault <;> rfl
    rw [hstate] at h
    beta_reduce at h
    split_ifs at h with hfound
    · obtain ⟨rfl, -, -⟩ := runs_pure h
      exact Or.inl (by simpa using hquiet)
    · have habsent : fault = none → fs.entry key = none := by
        rintro rfl
        cases he : fs.entry key with
        | none => rfl
        | some e => cases e <;> simp [respond, perform, he, Except.isOk, Except.toBool] at hfound
      rcases runs_createFile h with hq | ⟨⟨e, he, hcreated⟩, henc⟩
      · exact Or.inl (List.forall_mem_cons.mpr ⟨hquiet, hq⟩)
      · exact Or.inr ⟨⟨e, List.mem_cons_of_mem _ he, hcreated⟩,
          fun hok => habsent (hok _ List.mem_cons_self), henc⟩

end Put

def Call.Quiet : Call FileName → Prop
  | .create _ => False
  | .write _ _ => False
  | _ => True

theorem quiet_of_call {e : Event FileName} (h : Call.Quiet e.call) : Quiet e := by
  unfold Quiet
  cases hc : e.call <;> simp_all [Call.Quiet]

section Handler
variable {V : Type} (G : Gob V)

theorem uses_fileExists (p : Path FileName) : (fileExists p).Uses Call.Quiet :=
  ⟨trivial, fun r => by cases r <;> trivial⟩

theorem uses_fileIsDir (p : Path FileName) : (fileIsDir p).Uses Call.Quiet :=
  ⟨trivial, fun r => by cases r <;> trivial⟩

theorem uses_readFile (file : FileName) : (readFile G file).Uses Call.Quiet := by
  refine ⟨trivial, fun r => ?_⟩
  cases r with
  | error e => trivial
  | ok content =>
    cases hd : G.decode content with
    | none =>
      simp only [Prog.bind, hd]
      trivial
    | some obj =>
      simp only [Prog.bind, hd]
      trivial

theorem uses_loadFiles (db : DB V) (files : List FileName) :
    (loadFiles G db files).Uses Call.Quiet := by
  induction files generalizing db with
  | nil => trivial
  | cons file files ih =>
    refine uses_bind (uses_readFile G file) fun r => ?_
    cases r with
    | error e => exact ih db
    | ok obj => exact ih _

theorem uses_locationMissing : locationMissing.Uses Call.Quiet := by
  refine uses_bind (uses_fileExists _) fun found => ?_
  cases found with
  | false => trivial
  | true => exact uses_bind (uses_fileIsDir _) fun isDir => trivial

theorem uses_listDirFiles : listDirFiles.Uses Call.Quiet :=
  ⟨trivial, fun r => by cases r <;> trivial⟩

theorem uses_listed {α : Type} {k : Except Errno (List FileName) → Io α}
    (herror : ∀ e, (k (.error e)).Uses Call.Quiet) (hok : ∀ files, (k (.ok files)).Uses Call.Quiet) :
    (listDirFiles >>= k).Uses Call.Quiet := by
  refine uses_bind uses_listDirFiles fun files => ?_
  cases files with
  | error e => exact herror e
  | ok files => exact hok files

theorem uses_init (db : DB V) : (init G db).Uses Call.Quiet := by
  refine uses_bind uses_locationMissing fun missing => ?_
  cases missing with
  | false =>
    exact uses_listed (fun e => trivial) fun files =>
      uses_bind (uses_loadFiles G db files) fun db => trivial
  | true =>
    refine ⟨trivial, fun made => ?_⟩
    cases made with
    | error e => trivial
    | ok u =>
      exact uses_listed (fun e => trivial) fun files =>
        uses_bind (uses_loadFiles G db files) fun db => trivial

theorem uses_getDatabase (name : String) : (getDatabase G name).Uses Call.Quiet :=
  uses_bind (uses_init G _) fun _ => trivial

theorem uses_delete (db : DB V) (key : FileName) : (delete db key).Uses Call.Quiet := by
  unfold delete
  cases has db key with
  | false => trivial
  | true =>
    refine uses_bind (uses_fileExists _) fun found => ?_
    cases found with
    | false => trivial
    | true => exact ⟨trivial, fun r => by cases r <;> trivial⟩

end Handler

namespace Endpoint
variable {V : Type} (ep : Endpoint V)

theorem uses_load {r : Request} (hr : ep.saves r.method = false) :
    (ep.handler r).Uses Call.Quiet := by
  refine uses_bind (uses_getDatabase ep.gob _) fun db => ?_
  rw [if_neg (by simp [hr])]
  trivial

/-- What is known of a run that created the file: without faults the file was
absent before, or was removed on the way. -/
structure Replaced (v : V) (fs : Fs FileName) (tr : List (Event FileName))
    (gs : Fs FileName) : Prop where
  created : ∃ e ∈ tr, Created ep.key e
  cleared : (∀ e ∈ tr, e.fault = none) → fs.entry ep.key = none ∨ ∃ e ∈ tr, Removed ep.key e
  encoded : Encoded ep.gob ep.key v tr gs

theorem Replaced.behind {v : V} {α : Type} {p q : Io α} {fs hs gs : Fs FileName}
    {s t : List (Event FileName)} (hrun : Runs p fs s q hs) (hquiet : ∀ e ∈ s, Quiet e)
    (h : ep.Replaced v hs t gs) : ep.Replaced v fs (s ++ t) gs := by
  obtain ⟨⟨e, he, hcreated⟩, hcleared, hencoded⟩ := h
  refine ⟨⟨e, List.mem_append_right s he, hcreated⟩, fun hok => ?_, ?_⟩
  · rcases hcleared fun e he => hok e (List.mem_append_right s he) with habsent | ⟨e, he, hrem⟩
    · by_cases hin : ∃ e ∈ s, Removed ep.key e
      · obtain ⟨e, he, hrem⟩ := hin
        exact Or.inr ⟨e, List.mem_append_left t he, hrem⟩
      · have hkept := quiet_kept hrun ep.key fun e he => ⟨hquiet e he, fun hrem => hin ⟨e, he, hrem⟩⟩
        exact Or.inl (hkept.1 ▸ habsent)
    · exact Or.inr ⟨e, List.mem_append_right s he, hrem⟩
  · unfold Encoded
    rw [stores_append, stores_of_quiet hquiet, Nat.zero_add]
    exact hencoded

theorem runs_quiet_bind {v : V} {α β : Type} {p : Io α} {f : α → Io β} {fs gs : Fs FileName}
    {tr : List (Event FileName)} {q : Io β} (h : Runs (p >>= f) fs tr q gs)
    (hp : p.Uses Call.Quiet)
    (hf : ∀ a hs t, Runs (f a) hs t q gs → (∀ e ∈ t, Quiet e) ∨ ep.Replaced v hs t gs) :
    (∀ e ∈ tr, Quiet e) ∨ ep.Replaced v fs tr gs := by
  rcases runs_bind h with ⟨p', hcut, -⟩ | ⟨a, hs, s, t, rfl, hdone, hrest⟩
  · exact Or.inl fun e he => quiet_of_call (hcut.uses hp e he)
  · have hquiet : ∀ e ∈ s, Quiet e := fun e he => quiet_of_call (hdone.uses hp e he)
    rcases hf a hs t hrest with ht | ht
    · exact Or.inl (List.forall_mem_append.mpr ⟨hquiet, ht⟩)
    · exact Or.inr (ht.behind ep hdone hquiet)

/-- A cut save is quiet, or it put a new file in the place of the old one. -/
theorem runs_save {r : Request} (hr : ep.saves r.method = true) {fs gs : Fs FileName}
    {tr : List (Event FileName)} {q : Io (Reply V)} (h : Runs (ep.handler r) fs tr q gs) :
    (∀ e ∈ tr, Quiet e) ∨ ep.Replaced (ep.decoded r.body).value fs tr gs := by
  refine ep.runs_quiet_bind h (uses_getDatabase ep.gob _) fun db hs t ht => ?_
  rw [if_pos hr] at ht
  have hupdate : ∃ q', Runs (update ep.gob db ep.key (ep.decoded r.body).value) hs t q' gs := by
    rcases runs_bind ht with ⟨q', hq, -⟩ | ⟨a, gs', t₁, t₂, rfl, hq, hrest⟩
    · exact ⟨q', hq⟩
    · obtain ⟨rfl, -, rfl⟩ := runs_pure hrest
      exact ⟨_, by simpa using hq⟩
  obtain ⟨q', hq⟩ := hupdate
  refine ep.runs_quiet_bind hq (uses_delete db ep.key) fun a ks u hu => ?_
  obtain ⟨db', err⟩ := a
  cases err with
  | some e =>
    obtain ⟨rfl, -, -⟩ := runs_pure hu
    exact Or.inl (by simp)
  | none =>
    rcases runs_put hu with hquiet | ⟨hcreated, habsent, hencoded⟩
    · exact Or.inl hquiet
    · exact Or.inr ⟨hcreated, fun hok => Or.inl (habsent hok), hencoded⟩

end Endpoint

end NexFi.StoreHandlers
