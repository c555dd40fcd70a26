import NexFi.StoreInvariant

/-!
# The steps of interleaved saves

A step that neither creates nor writes leaves every file as it was; a create
makes its request the last truncator of an emptied file; a write puts one
message back into it. Each keeps the invariant, so every step of every request
does.
-/

namespace NexFi.StoreHandlers
open Posix Prog StoreDB GoJson

variable {V ι : Type}

namespace Endpoint
variable {ep : Endpoint V} {req : ι → Request} {fs₀ : Fs FileName} {prec prec' : ι → ι → Prop}
  {begun : List ι} {b b' : Board FileName ι (Phase V)} {img : Images ι ep} {opener : ℕ → ι} {i : ι}

namespace Inv
variable (h : ep.Inv req fs₀ prec begun b img opener)

section Pass
variable (hother : ∀ j, j ≠ i → b'.phases j = b.phases j)
  (hp : ep.Passes (req i) (b.phases i) (b'.phases i) b.fs b'.fs)

include hp

theorem pass_linked {n : ℕ} (hn : b'.fs.entry ep.key = some (.file n)) :
    b'.fs.entry ep.key = b.fs.entry ep.key := by
  refine hp.entry.resolve_right ?_
  rintro ⟨hnone, -⟩
  simp [hnone] at hn

include hother

theorem pass_early {s : ι} (hs : ep.Saves req s) (hsame : b'.fs.entry ep.key = b.fs.entry ep.key)
    (hcur : (ep.current b.fs).isSome) (hearly : (b.phases s).Early ep.key) :
    (b'.phases s).Early ep.key := by
  by_cases hsi : s = i
  · subst hsi
    exact hp.early hs hsame hcur hearly
  · rwa [hother s hsi]

include h

theorem pass_old (hhealthy : ep.Healthy fs₀) {n : ℕ} (hn : n < fs₀.fresh)
    (he : b'.fs.entry ep.key = some (.file n)) :
    fs₀.entry ep.key = some (.file n) ∧ b'.fs.data n = fs₀.data n ∧
      ∀ s, ep.Saves req s → (b'.phases s).Early ep.key := by
  have hsame := pass_linked hp he
  obtain ⟨he₀, hdata, hall⟩ := h.old n hn (hsame ▸ he)
  have hcur := h.current_settled hhealthy (hsame ▸ he) fun hge => absurd hn hge.not_gt
  exact ⟨he₀, hp.data ▸ hdata, fun s hs => pass_early hother hp hs hsame hcur (hall s hs)⟩

theorem pass_settled (hhealthy : ep.Healthy fs₀)
    (hprec : ∀ r s, prec' r s → prec r s ∨ ((b'.phases r).Finished ∧ s ∉ begun ++ [i])) {n : ℕ}
    (hn : fs₀.fresh ≤ n) (he : b'.fs.entry ep.key = some (.file n))
    (hfin : (b'.phases (opener n)).Finished) {j : ι} {rest : Bytes}
    (hl : (img n).last = some (j, rest)) {s : ι} (hs : ep.Saves req s) (hjs : prec' j s) :
    (b'.phases s).Early ep.key := by
  have hsame := pass_linked hp he
  rcases hprec j s hjs with hold | ⟨-, hnew⟩
  · rw [hother _ (h.opener_ne hp.started hn (b.fs.allocated _ _ (hsame ▸ he)))] at hfin
    have hcur := h.current_settled hhealthy (hsame ▸ he) fun _ => hfin
    exact pass_early hother hp hs hsame hcur (h.settled n hn (hsame ▸ he) hfin j rest hl s hs hold)
  · exact h.early_after hother hnew

theorem pass_absent (he : b'.fs.entry ep.key = none) : (∃ j, (b'.phases j).Placing) ∨
    (fs₀.entry ep.key = none ∧ ∀ s, ep.Saves req s → (b'.phases s).Unread ep.key) := by
  rcases hp.entry with hsame | ⟨-, hput⟩
  · have habsent := hsame ▸ he
    rcases h.absent habsent with ⟨j, hj⟩ | ⟨he₀, hall⟩
    · refine Or.inl ⟨j, ?_⟩
      by_cases hji : j = i
      · subst hji
        exact hp.placing habsent hj
      · rwa [hother j hji]
    · by_cases hplaced : ∃ j, (b'.phases j).Placing
      · exact Or.inl hplaced
      · refine Or.inr ⟨he₀, fun s hs => ?_⟩
        by_cases hsi : s = i
        · subst hsi
          exact (hp.unread hs habsent (hall s hs)).resolve_right fun hpl => hplaced ⟨s, hpl⟩
        · rw [hother s hsi]
          exact hall s hs
  · exact Or.inl ⟨i, by rw [hput]; trivial⟩

theorem step_pass (hhealthy : ep.Healthy fs₀)
    (hprec : ∀ r s, prec' r s → prec r s ∨ ((b'.phases r).Finished ∧ s ∉ begun ++ [i])) :
    ep.Inv req fs₀ prec' (begun ++ [i]) b' img opener := by
  refine
    { idle := fun j hj => h.idle_after hother hj
      past := h.past_after hother hp.started.1 hprec
      ready := ?ready
      saving := ?saving
      grown := hp.fresh ▸ h.grown
      file := ?file
      old := fun n hn he => h.pass_old hother hp hhealthy hn he
      image := fun n hn hlt => hp.data ▸ h.image n hn (hp.fresh ▸ hlt)
      covered := ?covered
      owned := ?owned
      writers := h.writers_after hother hp.fresh.ge (writes_of_still hp.still)
      settled := fun n hn he hfin j rest hl s hs hjs =>
        h.pass_settled hother hp hhealthy hprec hn he hfin hl hs hjs
      absent := h.pass_absent hother hp }
  case ready =>
    intro j
    by_cases hj : j = i
    · subst hj
      exact hp.ready
    · rw [hother j hj]
      exact (h.ready j).imp_left hp.dir
  case saving =>
    intro j hj
    by_cases hji : j = i
    · subst hji
      exact hp.saving hj
    · rw [hother j hji] at hj
      exact h.saving j hj
  case file =>
    intro e he
    rcases hp.entry with hsame | ⟨hnone, -⟩
    · exact h.file e (hsame ▸ he)
    · simp [hnone] at he
  case covered =>
    intro n hn hlt
    obtain ⟨hsaves, hcovers⟩ := h.covered n hn (hp.fresh ▸ hlt)
    exact ⟨hsaves, by rwa [hother _ (h.opener_ne hp.started hn (hp.fresh ▸ hlt))]⟩
  case owned =>
    intro n hn hlt j rest hl
    obtain ⟨hsaves, hfin⟩ := h.owned n hn (hp.fresh ▸ hlt) j rest hl
    exact ⟨hsaves, by rwa [finished_kept hother hp.started.1 hfin]⟩

end Pass

include h in
/-- Creating the file, on a fresh inode or by truncating a linked one. -/
theorem step_create (hother : ∀ j, j ≠ i → b'.phases j = b.phases j)
    (hphase : b.phases i = .create) {n : ℕ}
    (hwriting : b'.phases i = writing ⟨n, 0⟩ (ep.gob.messages (ep.value req i)))
    (hdir : b'.fs.dir.isSome) (he : b'.fs.entry ep.key = some (.file n)) (hn : fs₀.fresh ≤ n)
    (hgrow : b.fs.fresh ≤ b'.fs.fresh) (hlt : n < b'.fs.fresh)
    (hfresh : ∀ m, m ≠ n → m < b'.fs.fresh → m < b.fs.fresh)
    (hdata : ∀ m, b'.fs.data m = if m = n then [] else b.fs.data m)
    (hprec : ∀ r s, prec' r s → prec r s ∨ ((b'.phases r).Finished ∧ s ∉ begun ++ [i])) :
    ep.Inv req fs₀ prec' (begun ++ [i]) b' (Function.update img n .truncated)
      (Function.update opener n i) := by
  have hsaves : ep.Saves req i := h.saving i (by rw [hphase]; trivial)
  have hopen : ¬ (b.phases i).Finished ∧ ¬ (b.phases i).Writing := by
    rw [hphase]
    exact ⟨id, id⟩
  obtain ⟨c, cs, hmsgs⟩ := List.exists_cons_of_ne_nil (ep.gob.messages_ne (ep.value req i))
  rw [hmsgs] at hwriting
  have hcs : cs.length = ep.gob.descriptors.length := by
    have := congrArg List.length hmsgs
    simp only [Gob.messages, List.length_append, List.length_cons, List.length_nil] at this
    omega
  refine
    { idle := fun j hj => h.idle_after hother hj
      past := h.past_after hother hopen.1 hprec
      ready := fun _ => Or.inl hdir
      saving := h.saving_after hother hsaves
      grown := h.grown.trans hgrow
      file := fun e he' => ⟨n, Option.some.inj (he'.symm.trans he)⟩
      old := ?old
      image := ?image
      covered := ?covered
      owned := ?owned
      writers := h.writers_after hother hgrow ?writers
      settled := ?settled
      absent := fun hnone => by simp [he] at hnone }
  case old =>
    intro m hm he'
    obtain rfl : m = n := by simpa [he] using he'.symm
    exact absurd hm hn.not_gt
  case image =>
    intro m hm hmlt
    rw [hdata m]
    by_cases hmn : m = n
    · subst hmn
      rw [if_pos rfl, Function.update_self, Image.content_truncated]
    · rw [if_neg hmn, Function.update_of_ne hmn]
      exact h.image m hm (hfresh m hmn hmlt)
  case covered =>
    intro m hm hmlt
    by_cases hmn : m = n
    · subst hmn
      rw [Function.update_self, Function.update_self, hwriting]
      exact ⟨hsaves, rfl, fun k hk => by omega⟩
    · have hmlt' := hfresh m hmn hmlt
      rw [Function.update_of_ne hmn, Function.update_of_ne hmn, hother _ (h.opener_ne hopen hm hmlt')]
      exact h.covered m hm hmlt'
  case owned =>
    intro m hm hmlt j rest hl
    by_cases hmn : m = n
    · subst hmn
      rw [Function.update_self] at hl
      cases hl
    · rw [Function.update_of_ne hmn] at hl
      obtain ⟨hj, hfin⟩ := h.owned m hm (hfresh m hmn hmlt) j rest hl
      exact ⟨hj, by rwa [finished_kept hother hopen.1 hfin]⟩
  case writers =>
    rw [hwriting]
    exact ⟨hn, hlt, [], hmsgs, rfl⟩
  case settled =>
    intro m hm he' hfin
    obtain rfl : m = n := by simpa [he] using he'.symm
    rw [Function.update_self, hwriting] at hfin
    exact hfin.elim

/-- One write of `i` to the file `n`, which shows `X` afterwards. -/
structure WritesTo (ep : Endpoint V) (req : ι → Request) (fs₀ : Fs FileName) (img : Images ι ep)
    (i : ι) (n : ℕ) (X : Image ι ep.gob.descriptors) (b b' : Board FileName ι (Phase V)) : Prop where
  other : ∀ j, j ≠ i → b'.phases j = b.phases j
  phase : ∃ file c cs, b.phases i = .write file c cs ∧ file.inode = n
  disk : ∃ bytes, b'.fs = b.fs.setData n bytes
  content : b'.fs.data n = X.content (ep.message req)
  grown : ∀ k, (img n).written.getD k false = true → X.written.getD k false = true
  last : (X.last = (img n).last ∧ ¬ (b'.phases i).Finished) ∨
    ((∃ rest, X.last = some (i, rest)) ∧ (b'.phases i).Finished)
  covers : ep.Covers n (img n) (b.phases i) → ep.Covers n X (b'.phases i)
  writes : ep.Writes fs₀ b'.fs (ep.value req i) (b'.phases i)

section Write
variable {n : ℕ} {X : Image ι ep.gob.descriptors} (hw : WritesTo ep req fs₀ img i n X b b')

include hw

theorem WritesTo.entry : b'.fs.entry ep.key = b.fs.entry ep.key := by
  obtain ⟨bytes, hfs⟩ := hw.disk
  rw [hfs, Fs.entry_setData]

theorem WritesTo.fresh : b'.fs.fresh = b.fs.fresh := by
  obtain ⟨bytes, hfs⟩ := hw.disk
  rw [hfs]
  rfl

theorem WritesTo.unfinished : ¬ (b.phases i).Finished := by
  obtain ⟨file, c, cs, hphase, -⟩ := hw.phase
  rw [hphase]
  exact id

theorem WritesTo.late : ¬ (b.phases i).Early ep.key := by
  obtain ⟨file, c, cs, hphase, -⟩ := hw.phase
  rw [hphase]
  exact id

theorem WritesTo.early {s : ι} (hs : (b.phases s).Early ep.key) : (b'.phases s).Early ep.key := by
  rwa [hw.other s]
  rintro rfl
  exact hw.late hs

/-- The owner of a file is the old one, or the writer with its last message. -/
theorem WritesTo.owner {m : ℕ} {j : ι} {rest : Bytes}
    (hl : (Function.update img n X m).last = some (j, rest)) :
    ((img m).last = some (j, rest) ∧ (m = n → ¬ (b'.phases i).Finished)) ∨
      (j = i ∧ (b'.phases i).Finished) := by
  by_cases hmn : m = n
  · subst hmn
    rw [Function.update_self] at hl
    rcases hw.last with ⟨hsame, hopen⟩ | ⟨⟨rest', hnew⟩, hfin⟩
    · exact Or.inl ⟨hsame ▸ hl, fun _ => hopen⟩
    · obtain ⟨rfl, -⟩ : i = j ∧ rest' = rest := by simpa [hnew] using hl
      exact Or.inr ⟨rfl, hfin⟩
  · rw [Function.update_of_ne hmn] at hl
    exact Or.inl ⟨hl, fun heq => absurd heq hmn⟩

include h

theorem write_saves : ep.Saves req i := by
  obtain ⟨file, c, cs, hphase, -⟩ := hw.phase
  exact h.saving i (by rw [hphase]; trivial)

theorem write_opener {m : ℕ} (hmn : m ≠ n) (hm : fs₀.fresh ≤ m) (hlt : m < b.fs.fresh) :
    opener m ≠ i := by
  rintro rfl
  obtain ⟨file, c, cs, hphase, hinode⟩ := hw.phase
  obtain ⟨-, hcovers⟩ := h.covered m hm hlt
  rw [hphase] at hcovers
  exact hmn (hcovers.1.symm.trans hinode)

theorem write_image {m : ℕ} (hm : fs₀.fresh ≤ m) (hlt : m < b'.fs.fresh) :
    b'.fs.data m = (Function.update img n X m).content (ep.message req) := by
  by_cases hmn : m = n
  · subst hmn
    rw [Function.update_self, hw.content]
  · obtain ⟨bytes, hfs⟩ := hw.disk
    rw [Function.update_of_ne hmn, hfs, Fs.data_setData_ne _ hmn]
    exact h.image m hm (hw.fresh ▸ hlt)

theorem write_covered {m : ℕ} (hm : fs₀.fresh ≤ m) (hlt : m < b'.fs.fresh) :
    ep.Saves req (opener m) ∧ ep.Covers m (Function.update img n X m) (b'.phases (opener m)) := by
  have hlt' : m < b.fs.fresh := hw.fresh ▸ hlt
  obtain ⟨hsaves, hcovers⟩ := h.covered m hm hlt'
  refine ⟨hsaves, ?_⟩
  by_cases hmn : m = n
  · subst hmn
    rw [Function.update_self]
    by_cases hi : opener m = i
    · rw [hi] at hcovers ⊢
      exact hw.covers hcovers
    · rw [hw.other _ hi]
      cases hq : b.phases (opener m) with
      | write file d ds =>
        rw [hq] at hcovers
        exact ⟨hcovers.1, fun k hk => hw.grown k (hcovers.2 k hk)⟩
      | finished reply =>
        rw [hq] at hcovers
        refine ⟨fun k hk => hw.grown k (hcovers.1 k hk), ?_⟩
        rcases hw.last with ⟨hsame, -⟩ | ⟨⟨rest, hnew⟩, -⟩
        · exact hsame ▸ hcovers.2
        · simp [hnew]
      | _ => simp [hq, Covers] at hcovers
  · rw [Function.update_of_ne hmn, hw.other _ (h.write_opener hw hmn hm hlt')]
    exact hcovers

theorem write_owned {m : ℕ} (hm : fs₀.fresh ≤ m) (hlt : m < b'.fs.fresh) {j : ι} {rest : Bytes}
    (hl : (Function.update img n X m).last = some (j, rest)) :
    ep.Saves req j ∧ (b'.phases j).Finished := by
  rcases hw.owner hl with ⟨hold, -⟩ | ⟨rfl, hfin⟩
  · obtain ⟨hj, hfin⟩ := h.owned m hm (hw.fresh ▸ hlt) j rest hold
    exact ⟨hj, by rwa [finished_kept hw.other hw.unfinished hfin]⟩
  · exact ⟨h.write_saves hw, hfin⟩

theorem write_settled
    (hprec : ∀ r s, prec' r s → prec r s ∨ ((b'.phases r).Finished ∧ s ∉ begun ++ [i])) {m : ℕ}
    (hm : fs₀.fresh ≤ m) (he : b'.fs.entry ep.key = some (.file m))
    (hfin : (b'.phases (opener m)).Finished) {j : ι} {rest : Bytes}
    (hl : (Function.update img n X m).last = some (j, rest)) {s : ι} (hs : ep.Saves req s)
    (hjs : prec' j s) : (b'.phases s).Early ep.key := by
  rcases hprec j s hjs with hold | ⟨-, hnew⟩
  · rcases hw.owner hl with ⟨hl', hopen⟩ | ⟨rfl, -⟩
    · have hne : opener m ≠ i := by
        by_cases hmn : m = n
        · rintro hi
          exact hopen hmn (hi ▸ hfin)
        · exact h.write_opener hw hmn hm (b.fs.allocated _ _ (hw.entry ▸ he))
      rw [hw.other _ hne] at hfin
      exact hw.early (h.settled m hm (hw.entry ▸ he) hfin j rest hl' s hs hold)
    · exact absurd (h.past j s hold) hw.unfinished
  · exact h.early_after hw.other hnew

theorem write_absent (he : b'.fs.entry ep.key = none) : (∃ j, (b'.phases j).Placing) ∨
    (fs₀.entry ep.key = none ∧ ∀ s, ep.Saves req s → (b'.phases s).Unread ep.key) := by
  obtain ⟨file, c, cs, hphase, -⟩ := hw.phase
  rcases h.absent (hw.entry ▸ he) with ⟨j, hj⟩ | ⟨-, hall⟩
  · refine Or.inl ⟨j, ?_⟩
    rwa [hw.other j]
    rintro rfl
    rw [hphase] at hj
    exact hj
  · have hunread := hall i (h.write_saves hw)
    rw [hphase] at hunread
    exact hunread.elim

theorem step_write
    (hprec : ∀ r s, prec' r s → prec r s ∨ ((b'.phases r).Finished ∧ s ∉ begun ++ [i])) :
    ep.Inv req fs₀ prec' (begun ++ [i]) b' (Function.update img n X) opener where
  idle _ hj := h.idle_after hw.other hj
  past := h.past_after hw.other hw.unfinished hprec
  ready _ := by
    obtain ⟨file, c, cs, hphase, -⟩ := hw.phase
    obtain ⟨bytes, hfs⟩ := hw.disk
    have hdir := (h.ready i).resolve_right (by simp [hphase])
    exact Or.inl (by rw [hfs]; exact hdir)
  saving := h.saving_after hw.other (h.write_saves hw)
  grown := hw.fresh ▸ h.grown
  file e he := h.file e (hw.entry ▸ he)
  old m hm he :=
    absurd hm (h.new_of_late (h.write_saves hw) hw.late (hw.entry ▸ he)).not_gt
  image _ hm hlt := h.write_image hw hm hlt
  covered _ hm hlt := h.write_covered hw hm hlt
  owned _ hm hlt _ _ hl := h.write_owned hw hm hlt hl
  writers := h.writers_after hw.other hw.fresh.ge hw.writes
  settled _ hm he hfin _ _ hl _ hs hjs := h.write_settled hw hprec hm he hfin hl hs hjs
  absent := h.write_absent hw

end Write

section Step
variable [DecidableEq ι]

include h

theorem inv_created (hphase : b.phases i = .create)
    (hprec : ∀ r s, prec' r s → prec r s ∨
      (((b.step (ep.Step req) i).phases r).Finished ∧ s ∉ begun ++ [i])) :
    ∃ img' opener', ep.Inv req fs₀ prec' (begun ++ [i]) (b.step (ep.Step req) i) img' opener' := by
  have hdir := (h.ready i).resolve_right (by simp [hphase])
  have hsaves : ep.Saves req i := h.saving i (by rw [hphase]; trivial)
  have hlate : ¬ (b.phases i).Early ep.key := by
    rw [hphase]
    exact id
  have hmove : ep.Step req i (b.phases i) = .call (.create ep.key) (ep.created (req i)) := by
    rw [hphase]
    rfl
  have hfs := Board.step_fs (ep.Step req) hmove
  have hself := Board.step_self (ep.Step req) hmove
  have hother : ∀ j, j ≠ i → (b.step (ep.Step req) i).phases j = b.phases j := fun j hj =>
    Board.step_other (ep.Step req) b hj
  generalize b.step (ep.Step req) i = b' at hfs hself hother hprec ⊢
  cases he : b.fs.entry ep.key with
  | none =>
    obtain ⟨d, hd⟩ := Option.isSome_iff_exists.mp hdir
    simp only [perform, Fs.create_absent he hd] at hfs hself
    refine ⟨_, _, h.step_create (n := b.fs.fresh) hother hphase hself ?_ ?_ h.grown ?_ ?_ ?_ ?_ hprec⟩
    · rw [hfs]
      rfl
    · rw [hfs, Fs.entry_link, if_pos rfl]
    · rw [hfs]
      exact Nat.le_succ _
    · rw [hfs]
      exact Nat.lt_succ_self _
    · intro m hm hlt
      rw [hfs] at hlt
      exact lt_of_le_of_ne (Nat.le_of_lt_succ hlt) hm
    · intro m
      simp [hfs, Fs.link, Function.update_apply]
  | some e =>
    obtain ⟨n, rfl⟩ := h.file e he
    simp only [perform, Fs.create_file he] at hfs hself
    have hfresh : b'.fs.fresh = b.fs.fresh := by
      rw [hfs]
      rfl
    refine ⟨_, _, h.step_create (n := n) hother hphase hself ?_ ?_ (h.new_of_late hsaves hlate he)
      hfresh.ge ?_ ?_ ?_ hprec⟩
    · rw [hfs]
      exact hdir
    · rw [hfs, Fs.entry_setData, he]
    · rw [hfresh]
      exact b.fs.allocated _ _ he
    · exact fun m _ hlt => hfresh ▸ hlt
    · intro m
      simp [hfs, Fs.setData, Function.update_apply]

theorem inv_written {file : OpenFile} {c : Bytes} {cs : List Bytes}
    (hphase : b.phases i = .write file c cs)
    (hprec : ∀ r s, prec' r s → prec r s ∨
      (((b.step (ep.Step req) i).phases r).Finished ∧ s ∉ begun ++ [i])) :
    ∃ img' opener', ep.Inv req fs₀ prec' (begun ++ [i]) (b.step (ep.Step req) i) img' opener' := by
  have hwriter := h.writers i
  rw [hphase] at hwriter
  obtain ⟨hge, hlt, done, hmsgs, hoff⟩ := hwriter
  have hmove : ep.Step req i (b.phases i) = .call (.write file c) (written cs) := by
    rw [hphase]
    rfl
  have hfs := Board.step_fs (ep.Step req) hmove
  have hself := Board.step_self (ep.Step req) hmove
  have hother : ∀ j, j ≠ i → (b.step (ep.Step req) i).phases j = b.phases j := fun j hj =>
    Board.step_other (ep.Step req) b hj
  generalize b.step (ep.Step req) i = b' at hfs hself hother hprec ⊢
  have himage := h.image file.inode hge hlt
  simp only [perform, Fs.write] at hfs hself
  rcases ep.gob.messages_split hmsgs with ⟨rfl, rfl, rfl⟩ | ⟨ds, rfl, hds⟩
  · have hdone : b'.phases i = .finished (.status "ok") := hself
    refine ⟨_, opener, h.step_write (X := (img file.inode).store (ep.message req) i)
      ⟨hother, ⟨file, _, _, hphase, rfl⟩, ⟨_, hfs⟩, ?_, fun k hk => Image.written_store _ _ i hk,
        Or.inr ⟨⟨_, rfl⟩, by rw [hdone]; trivial⟩, fun hcov => ?_, by rw [hdone]; trivial⟩ hprec⟩
    · have hend : offsetOf ep.gob.descriptors ep.gob.descriptors.length = file.offset := by
        simp [offsetOf, hoff]
      rw [hfs, Fs.data_setData, himage, ← Image.content_store, hend]
      rfl
    · rw [hphase] at hcov
      rw [hdone]
      exact ⟨fun k hk => Image.written_store _ _ i (hcov.2 k hk), rfl⟩
  · obtain ⟨x, xs, hxs⟩ := List.exists_cons_of_ne_nil
      (List.append_ne_nil_of_right_ne_nil ds (List.cons_ne_nil (ep.gob.message (ep.value req i)) []))
    have hlen : ep.gob.descriptors.length = done.length + (xs.length + 1) := by
      have hcount := congrArg List.length hxs
      simp only [List.length_append, List.length_cons, List.length_nil] at hcount
      rw [hds, List.length_append, List.length_cons]
      omega
    have hj : done.length < ep.gob.descriptors.length := by omega
    have hget : ep.gob.descriptors[done.length] = c := by simp [hds]
    have hstart : offsetOf ep.gob.descriptors done.length = file.offset := by
      simp [offsetOf, hds, hoff]
    rw [hxs] at hself hphase hmsgs
    have hnext : b'.phases i = .write ⟨file.inode, file.offset + c.length⟩ x xs := hself
    refine ⟨_, opener, h.step_write (X := (img file.inode).define done.length hj)
      ⟨hother, ⟨file, _, _, hphase, rfl⟩, ⟨_, hfs⟩, ?_, fun k hk => mark_getD_of_written _ hk,
        Or.inl ⟨rfl, by rw [hnext]; exact id⟩, fun hcov => ?_, ?_⟩ hprec⟩
    · rw [hfs, Fs.data_setData, himage, ← Image.content_define, hget, hstart]
    · rw [hphase] at hcov
      rw [hnext]
      refine ⟨rfl, fun k hk => ?_⟩
      by_cases hkd : k = done.length
      · rw [hkd]
        exact mark_getD_self _ _
      · refine mark_getD_of_written _ (hcov.2 k ?_)
        rw [List.length_cons]
        omega
    · rw [hnext]
      refine ⟨hge, ?_, done ++ [c], by simp [hmsgs], by simp [hoff]⟩
      rw [hfs]
      exact hlt

theorem inv_step (hhealthy : ep.Healthy fs₀) (i : ι)
    (hprec : ∀ r s, prec' r s → prec r s ∨
      (((b.step (ep.Step req) i).phases r).Finished ∧ s ∉ begun ++ [i])) :
    ∃ img' opener', ep.Inv req fs₀ prec' (begun ++ [i]) (b.step (ep.Step req) i) img' opener' := by
  cases hmove : ep.Step req i (b.phases i) with
  | done reply =>
    rw [Board.step_done (ep.Step req) hmove] at hprec ⊢
    exact ⟨img, opener, h.step_idle hprec⟩
  | call c next =>
    by_cases hcreate : b.phases i = .create
    · exact h.inv_created hcreate hprec
    · by_cases hwrite : (b.phases i).Writing
      · cases hphase : b.phases i with
        | write file c cs => exact h.inv_written hphase hprec
        | _ => simp [hphase, Phase.Writing] at hwrite
      · refine ⟨img, opener, h.step_pass (fun j hj => Board.step_other (ep.Step req) b hj) ?_
          hhealthy hprec⟩
        rw [Board.step_self (ep.Step req) hmove, Board.step_fs (ep.Step req) hmove]
        exact ep.passes (req i) hmove hcreate hwrite (h.ready i) (h.saving i) h.file

end Step

end Inv

end Endpoint
end NexFi.StoreHandlers
