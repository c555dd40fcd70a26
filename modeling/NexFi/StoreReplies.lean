import NexFi.GoGob
import NexFi.StoreRequests

/-!
# What a reply promises and what a request may change

The saving branch replies "ok" whatever happened and saves whatever the JSON
decoder left. Both theorems give the exact circumstances under which a client
may rely on what it sees.
-/

namespace NexFi.StoreHandlers
open Posix Prog StoreDB GoJson

variable {V : Type} (ep : Endpoint V)

namespace Endpoint

/-- After a reply "ok" a read without failures shows the posted document. -/
def Truthful (φ : Faults) (fs : Fs FileName) (post read : Request) : Prop :=
  let sent := run (faulty φ) (ep.handler post) fs
  sent.1 = .status "ok" → ∃ v, (run perform (ep.handler read) sent.2).1 = .document v ∧
    ep.gob.canon v = ep.gob.canon (ep.decoded post.body).value

section Truth
variable {φ : Faults} {fs : Fs FileName} {post read : Request} (h : ep.Healthy fs)
  (hpost : ep.saves post.method = true) (hread : ep.saves read.method = false)

include h hpost hread

theorem truthful_through (ht : ep.Through φ fs (ep.decoded post.body).value) :
    ep.Truthful φ fs post read := by
  obtain ⟨gs, hrun, hdone, -⟩ := ep.run_save φ fs hpost h
  intro _
  simp [hrun, ep.run_load gs hread, hdone ht, ep.gob.canon_canon]

/-- A save that does not get through is answered like one that does. -/
theorem truthful_left (ht : ¬ ep.Through φ fs (ep.decoded post.body).value) :
    ep.Truthful φ fs post read ↔
      ep.gob.canon ((ep.left φ fs).getD ep.zero) = ep.gob.canon (ep.decoded post.body).value := by
  obtain ⟨gs, hrun, -, hfail⟩ := ep.run_save φ fs hpost h
  simp [Truthful, hrun, ep.run_load gs hread, hfail ht]

end Truth

/-- The reply tells the truth exactly when the calls the save depends on
succeed, or when the document that remains is the posted one anyway. -/
theorem truthful_iff (φ : Faults) (fs : Fs FileName) (h : ep.Healthy fs) (post read : Request)
    (hpost : ep.saves post.method = true) (hread : ep.saves read.method = false) :
    ep.Truthful φ fs post read ↔
      ep.Through φ fs (ep.decoded post.body).value ∨
      ep.gob.canon ((ep.left φ fs).getD ep.zero) = ep.gob.canon (ep.decoded post.body).value := by
  by_cases ht : ep.Through φ fs (ep.decoded post.body).value
  · exact iff_of_true (ep.truthful_through h hpost hread ht) (Or.inl ht)
  · rw [ep.truthful_left h hpost hread ht]
    exact (or_iff_right ht).symm

theorem healthy_empty : ep.Healthy Fs.empty := Or.inl rfl

theorem truthful_config :
    (configEndpoint GoGob.configGob).Truthful Faults.clear Fs.empty (postConfig "mesh") getRequest :=
  (truthful_iff (configEndpoint GoGob.configGob) Faults.clear Fs.empty (healthy_empty _)
    (postConfig "mesh") getRequest rfl rfl).mpr (Or.inl (through_clear _ _ _))

/-- The create fails, the error is dropped, and the reply is "ok". -/
theorem config_reply_untrue :
    ¬ (configEndpoint GoGob.configGob).Truthful { Faults.clear with create := true } Fs.empty
      (postConfig "mesh") getRequest := by
  rw [truthful_left _ (healthy_empty _) rfl rfl fun ht => Bool.noConfusion ht.2.2.1,
    decoded_postConfig]
  decide +kernel

/-- A request that may change the document: a `POST` whose body decodes. -/
def WellFormed (r : Request) : Prop := r.method = "POST" ∧ (ep.decoded r.body).failed = false

/-- Only a well-formed save changes the document, and it changes it to its own. -/
def Faithful (fs : Fs FileName) (r : Request) : Prop :=
  let gs := (run perform (ep.handler r) fs).2
  (ep.current gs ≠ ep.current fs → ep.WellFormed r) ∧
  (ep.WellFormed r → ep.current gs = some (ep.gob.canon (ep.decoded r.body).value))

theorem current_mkdirAll (fs : Fs FileName) : ep.current fs.mkdirAll = ep.current fs :=
  stored_mkdirAll fs ep.gob ep.key

/-- A request is faithful when it is well-formed and meets no stuck file, or
when it is not and either does not take the saving branch, or meets a stuck
file, or saves what is stored already. -/
theorem faithful_iff (fs : Fs FileName) (r : Request) :
    ep.Faithful fs r ↔
      (ep.WellFormed r ∧ ep.Healthy fs) ∨
      (¬ ep.WellFormed r ∧ (ep.saves r.method = false ∨ ep.Stuck fs ∨
        ep.current fs = some (ep.gob.canon (ep.decoded r.body).value))) := by
  have hexcl : ep.Stuck fs → ¬ ep.Healthy fs := by
    rintro ⟨he, hc⟩ (h | h)
    · simp [h] at he
    · simp [hc] at h
  cases hr : ep.saves r.method with
  | false =>
    have hwf : ¬ ep.WellFormed r := by
      rintro ⟨hm, -⟩
      rw [hm, ep.saves_post] at hr
      cases hr
    simp [Faithful, ep.run_load fs hr, ep.current_mkdirAll, hwf]
  | true =>
    rcases ep.healthy_or_stuck fs with h | h
    · obtain ⟨gs, hrun, hcur⟩ := ep.run_save_clear fs hr h
      have hns : ¬ ep.Stuck fs := fun hs => hexcl hs h
      by_cases hwf : ep.WellFormed r
      · simp [Faithful, hrun, hcur, hwf, h]
      · simp [Faithful, hrun, hcur, hwf, hns, eq_comm]
    · have hnh := hexcl h
      have hrun := ep.run_save_stuck fs hr h
      have hcur : ep.current fs = none := h.2
      by_cases hwf : ep.WellFormed r
      · simp [Faithful, hrun, hcur, hwf, hnh]
      · simp [Faithful, hrun, hwf, h]

def titled (title : String) : Fs FileName :=
  (run perform (configHandler GoGob.configGob (postConfig title)) Fs.empty).2

theorem current_titled (title : String) :
    (configEndpoint GoGob.configGob).current (titled title) = some ⟨title⟩ := by
  have h := current_saved (configEndpoint GoGob.configGob) Fs.empty (r := postConfig title) rfl
    (healthy_empty _)
  rw [decoded_postConfig] at h
  exact h

/-- A truncated body is logged as an error, and an empty title is saved. -/
theorem config_truncated_saved :
    ¬ (configEndpoint GoGob.configGob).Faithful (titled "mesh") ⟨"POST", none⟩ := by
  have hafter := current_saved (configEndpoint GoGob.configGob) (titled "mesh")
    (r := ⟨"POST", none⟩) rfl (Or.inr (Option.isSome_of_eq_some (current_titled "mesh")))
  rintro ⟨hchanged, -⟩
  have hill : ¬ (configEndpoint GoGob.configGob).WellFormed ⟨"POST", none⟩ := by
    rintro ⟨-, hfailed⟩
    cases hfailed
  refine hill (hchanged ?_)
  rw [hafter, current_titled]
  decide +kernel

end Endpoint
end NexFi.StoreHandlers
