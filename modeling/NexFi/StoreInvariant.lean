import NexFi.GobOverlay
import NexFi.StoreTransitions

/-!
# The invariant of interleaved saves

Every file created in the run is described by its `Image` and by the request
that truncated it last. As long as the original file is linked all saves are
still early; once the last truncator of a linked file has finished, all saves
that began after the owner of its value are early, so they will remove it; and
while the key is absent some save is about to create it.
-/

namespace NexFi.StoreHandlers
open Posix Prog StoreDB GoJson

variable {V ι : Type}

namespace Endpoint
variable (ep : Endpoint V) (req : ι → Request) (fs₀ : Fs FileName)

def Saves (i : ι) : Prop := ep.saves (req i).method = true

def value (i : ι) : V := (ep.decoded (req i).body).value

def message (i : ι) : Bytes := ep.gob.message (ep.value req i)

abbrev Step (i : ι) : Phase V → Move FileName (Phase V) (Reply V) := ep.move (req i)

abbrev Images (ι : Type) (ep : Endpoint V) := ℕ → Image ι ep.gob.descriptors

/-- What the last truncator of a file has put back into it. -/
def Covers (n : ℕ) (img : Image ι ep.gob.descriptors) : Phase V → Prop
  | .write file _ bs =>
    file.inode = n ∧ ∀ k, k + bs.length < ep.gob.descriptors.length → img.written.getD k false = true
  | .finished _ => img.Complete ∧ img.last.isSome
  | _ => False

/-- A writer stands between two messages of its value, at the end of the first. -/
def Writes (fs : Fs FileName) (v : V) : Phase V → Prop
  | .write file b bs => fs₀.fresh ≤ file.inode ∧ file.inode < fs.fresh ∧
    ∃ done, ep.gob.messages v = done ++ b :: bs ∧ file.offset = done.flatten.length
  | _ => True

structure Inv (prec : ι → ι → Prop) (begun : List ι) (b : Board FileName ι (Phase V))
    (img : Images ι ep) (opener : ℕ → ι) : Prop where
  idle : ∀ i ∉ begun, b.phases i = .statExists
  past : ∀ i j, prec i j → (b.phases i).Finished
  ready : ∀ i, b.fs.dir.isSome ∨ b.phases i = .statExists ∨ b.phases i = .mkdir
  saving : ∀ i, (b.phases i).Saving → ep.Saves req i
  grown : fs₀.fresh ≤ b.fs.fresh
  file : ∀ e, b.fs.entry ep.key = some e → ∃ n, e = .file n
  old : ∀ n < fs₀.fresh, b.fs.entry ep.key = some (.file n) →
    fs₀.entry ep.key = some (.file n) ∧ b.fs.data n = fs₀.data n ∧
    ∀ i, ep.Saves req i → (b.phases i).Early ep.key
  image : ∀ n, fs₀.fresh ≤ n → n < b.fs.fresh → b.fs.data n = (img n).content (ep.message req)
  covered : ∀ n, fs₀.fresh ≤ n → n < b.fs.fresh →
    ep.Saves req (opener n) ∧ ep.Covers n (img n) (b.phases (opener n))
  owned : ∀ n, fs₀.fresh ≤ n → n < b.fs.fresh → ∀ i rest, (img n).last = some (i, rest) →
    ep.Saves req i ∧ (b.phases i).Finished
  writers : ∀ i, ep.Writes fs₀ b.fs (ep.value req i) (b.phases i)
  settled : ∀ n, fs₀.fresh ≤ n → b.fs.entry ep.key = some (.file n) →
    (b.phases (opener n)).Finished → ∀ i rest, (img n).last = some (i, rest) →
    ∀ s, ep.Saves req s → prec i s → (b.phases s).Early ep.key
  absent : b.fs.entry ep.key = none → (∃ i, (b.phases i).Placing) ∨
    (fs₀.entry ep.key = none ∧ ∀ i, ep.Saves req i → (b.phases i).Unread ep.key)

variable {ep req fs₀} {prec prec' : ι → ι → Prop} {begun : List ι}
  {b : Board FileName ι (Phase V)} {img : Images ι ep} {opener : ℕ → ι}

theorem inv_start (h : ep.Healthy fs₀) (hprec : ∀ i j, ¬ prec i j) (img : Images ι ep)
    (opener : ℕ → ι) :
    ep.Inv req fs₀ prec [] ⟨fs₀, fun _ => .statExists⟩ img opener where
  idle _ _ := rfl
  past i j hp := absurd hp (hprec i j)
  ready _ := Or.inr (Or.inl rfl)
  saving _ hp := hp.elim
  grown := le_rfl
  file e he := by
    rcases h with habsent | hsome
    · simp [habsent] at he
    · obtain ⟨v, hv⟩ := Option.isSome_iff_exists.mp hsome
      obtain ⟨n, hn⟩ := ep.file_of_current hv
      exact ⟨n, Option.some.inj (he.symm.trans hn)⟩
  old n _ he := ⟨he, rfl, fun _ _ => trivial⟩
  image n hn hlt := absurd hlt hn.not_gt
  covered n hn hlt := absurd hlt hn.not_gt
  owned n hn hlt := absurd hlt hn.not_gt
  writers _ := trivial
  settled n hn he := absurd (fs₀.allocated _ _ he) hn.not_gt
  absent he := Or.inr ⟨he, fun _ _ => trivial⟩

theorem writes_of_still {fs : Fs FileName} {v : V} {p : Phase V} (hp : ¬ p.Writing) :
    ep.Writes fs₀ fs v p := by
  cases p with
  | write file c cs => exact absurd trivial hp
  | _ => trivial

namespace Inv
variable (h : ep.Inv req fs₀ prec begun b img opener)

include h

/-- A linked file whose last truncator has finished decodes to its owner's
value. -/
theorem current_new {n : ℕ} (hn : fs₀.fresh ≤ n) (he : b.fs.entry ep.key = some (.file n))
    (hfin : (b.phases (opener n)).Finished) :
    ∃ i rest, (img n).last = some (i, rest) ∧ ep.Saves req i ∧ (b.phases i).Finished ∧
      ep.current b.fs = some (ep.gob.canon (ep.value req i)) := by
  have hlt := b.fs.allocated _ _ he
  obtain ⟨-, hcovers⟩ := h.covered n hn hlt
  cases hp : b.phases (opener n) with
  | finished reply =>
    rw [hp] at hcovers
    obtain ⟨hcomplete, hlast⟩ := hcovers
    obtain ⟨⟨i, rest⟩, hl⟩ := Option.isSome_iff_exists.mp hlast
    obtain ⟨hsaves, hfin'⟩ := h.owned n hn hlt i rest hl
    refine ⟨i, rest, hl, hsaves, hfin', ?_⟩
    rw [current, stored, Fs.content_of_file he, h.image n hn hlt]
    exact decode_complete ep.gob (ep.value req) (img n) hcomplete hl
  | _ => simp [hp, Phase.Finished] at hfin

theorem current_old {n : ℕ} (hn : n < fs₀.fresh) (he : b.fs.entry ep.key = some (.file n)) :
    ep.current b.fs = ep.current fs₀ := by
  obtain ⟨he₀, hdata, -⟩ := h.old n hn he
  simp [current, stored, Fs.content_of_file he, Fs.content_of_file he₀, hdata]

theorem current_settled (hhealthy : ep.Healthy fs₀) {n : ℕ}
    (he : b.fs.entry ep.key = some (.file n))
    (hfin : fs₀.fresh ≤ n → (b.phases (opener n)).Finished) : (ep.current b.fs).isSome := by
  rcases Nat.lt_or_ge n fs₀.fresh with hn | hn
  · rw [h.current_old hn he]
    exact hhealthy.resolve_left (by simp [(h.old n hn he).1])
  · obtain ⟨i, rest, -, -, -, hcur⟩ := h.current_new hn he (hfin hn)
    simp [hcur]

/-- What a reader finds: the original document, or one that was saved. -/
theorem current_some {v : V} (hv : ep.current b.fs = some v) :
    ep.current fs₀ = some v ∨
    ∃ i, ep.Saves req i ∧ (b.phases i).Finished ∧ v = ep.gob.canon (ep.value req i) := by
  obtain ⟨n, he⟩ := ep.file_of_current hv
  rcases Nat.lt_or_ge n fs₀.fresh with hn | hn
  · exact Or.inl (h.current_old hn he ▸ hv)
  · have hlt := b.fs.allocated _ _ he
    have hdecode : ep.current b.fs = ep.gob.decode ((img n).content (ep.message req)) := by
      rw [current, stored, Fs.content_of_file he, h.image n hn hlt]
      rfl
    have hwhole : (img n).Complete ∧ (img n).last ≠ none := by
      by_contra hno
      have hnone : ep.gob.decode ((img n).content (ep.message req)) = none :=
        decode_incomplete ep.gob (ep.value req) (img n) v
          ((not_and_or.mp hno).imp_right not_not.mp)
      rw [hdecode, hnone] at hv
      cases hv
    obtain ⟨⟨i, rest⟩, hl⟩ := Option.ne_none_iff_exists'.mp hwhole.2
    obtain ⟨hsaves, hfin⟩ := h.owned n hn hlt i rest hl
    have hvalue := decode_complete ep.gob (ep.value req) (img n) hwhole.1 hl
    exact Or.inr ⟨i, hsaves, hfin, Option.some.inj ((hv.symm.trans hdecode).trans hvalue)⟩

/-- A reader finds nothing only while a save is under way, or where there was
nothing from the start. -/
theorem current_none (hhealthy : ep.Healthy fs₀) (hv : ep.current b.fs = none) :
    fs₀.entry ep.key = none ∨
    ∃ i, ep.Saves req i ∧ b.phases i ≠ .statExists ∧ ¬ (b.phases i).Finished := by
  cases he : b.fs.entry ep.key with
  | none =>
    rcases h.absent he with ⟨i, hi⟩ | ⟨he₀, -⟩
    · refine Or.inr ⟨i, h.saving i ?_, ?_, ?_⟩
      · cases hp : b.phases i <;> simp_all [Phase.Placing, Phase.Saving]
      · intro hp
        simp [hp, Phase.Placing] at hi
      · cases hp : b.phases i <;> simp_all [Phase.Placing, Phase.Finished]
    · exact Or.inl he₀
  | some e =>
    obtain ⟨n, rfl⟩ := h.file e he
    by_cases hfin : fs₀.fresh ≤ n → (b.phases (opener n)).Finished
    · simpa [hv] using h.current_settled hhealthy he hfin
    · obtain ⟨hn, hopen⟩ := Classical.not_imp.mp hfin
      obtain ⟨hsaves, hcov⟩ := h.covered n hn (b.fs.allocated _ _ he)
      refine Or.inr ⟨opener n, hsaves, ?_, hopen⟩
      intro hp
      rw [hp] at hcov
      exact hcov

variable {b' : Board FileName ι (Phase V)} {i : ι}

theorem idle_after (hother : ∀ j, j ≠ i → b'.phases j = b.phases j) {s : ι}
    (hs : s ∉ begun ++ [i]) : b'.phases s = .statExists := by
  simp only [List.mem_append, List.mem_singleton, not_or] at hs
  rw [hother s hs.2, h.idle s hs.1]

theorem early_after (hother : ∀ j, j ≠ i → b'.phases j = b.phases j) {s : ι}
    (hs : s ∉ begun ++ [i]) : (b'.phases s).Early ep.key := by
  rw [h.idle_after hother hs]
  trivial

theorem opener_ne (hi : ¬ (b.phases i).Finished ∧ ¬ (b.phases i).Writing) {n : ℕ}
    (hn : fs₀.fresh ≤ n) (hlt : n < b.fs.fresh) : opener n ≠ i := by
  rintro rfl
  obtain ⟨-, hcovers⟩ := h.covered n hn hlt
  cases hp : b.phases (opener n) with
  | write file c cs => exact hi.2 (by rw [hp]; trivial)
  | finished reply => exact hi.1 (by rw [hp]; trivial)
  | _ => simp [hp, Covers] at hcovers

omit h in
theorem finished_kept (hother : ∀ j, j ≠ i → b'.phases j = b.phases j)
    (hi : ¬ (b.phases i).Finished) {j : ι} (hj : (b.phases j).Finished) :
    b'.phases j = b.phases j := by
  refine hother j ?_
  rintro rfl
  exact hi hj

theorem new_of_late (hs : ep.Saves req i) (hlate : ¬ (b.phases i).Early ep.key) {n : ℕ}
    (he : b.fs.entry ep.key = some (.file n)) : fs₀.fresh ≤ n := by
  by_contra hn
  exact hlate ((h.old n (Nat.lt_of_not_le hn) he).2.2 i hs)

theorem past_after (hother : ∀ j, j ≠ i → b'.phases j = b.phases j)
    (hi : ¬ (b.phases i).Finished)
    (hprec : ∀ r s, prec' r s → prec r s ∨ ((b'.phases r).Finished ∧ s ∉ begun ++ [i])) :
    ∀ r s, prec' r s → (b'.phases r).Finished := by
  intro r s hrs
  rcases hprec r s hrs with hold | ⟨hnew, -⟩
  · have hr := h.past r s hold
    rwa [finished_kept hother hi hr]
  · exact hnew

theorem saving_after (hother : ∀ j, j ≠ i → b'.phases j = b.phases j) (hs : ep.Saves req i) :
    ∀ j, (b'.phases j).Saving → ep.Saves req j := by
  intro j hj
  by_cases hji : j = i
  · exact hji ▸ hs
  · exact h.saving j (hother j hji ▸ hj)

theorem writers_after (hother : ∀ j, j ≠ i → b'.phases j = b.phases j)
    (hgrow : b.fs.fresh ≤ b'.fs.fresh)
    (hi : ep.Writes fs₀ b'.fs (ep.value req i) (b'.phases i)) :
    ∀ j, ep.Writes fs₀ b'.fs (ep.value req j) (b'.phases j) := by
  intro j
  by_cases hji : j = i
  · exact hji ▸ hi
  · have hj := h.writers j
    rw [hother j hji]
    cases hq : b.phases j with
    | write file c cs =>
      rw [hq] at hj
      exact ⟨hj.1, hj.2.1.trans_le hgrow, hj.2.2⟩
    | _ => trivial

theorem step_idle (hprec : ∀ r s, prec' r s → prec r s ∨
    ((b.phases r).Finished ∧ s ∉ begun ++ [i])) :
    ep.Inv req fs₀ prec' (begun ++ [i]) b img opener :=
  { h with
    idle := fun _ hj => h.idle_after (fun _ _ => rfl) hj
    past := fun r s hrs => (hprec r s hrs).elim (h.past r s) And.left
    settled := fun n hn he hfin j rest hl s hs hjs =>
      (hprec j s hjs).elim (h.settled n hn he hfin j rest hl s hs)
        fun hnew => h.early_after (fun _ _ => rfl) hnew.2 }

end Inv

end Endpoint
end NexFi.StoreHandlers
