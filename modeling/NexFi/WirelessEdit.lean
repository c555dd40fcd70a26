import Mathlib.Data.List.Nodup
import NexFi.UciNode

/-!
# Saving a wireless edit

Every changed option is set with a call of its own; then the page commits or
reverts, depending on one flag that each answer overwrites. The edit may be half
applied exactly when a change was missed and the last answer was a success.
-/

namespace NexFi.WirelessEdit
open Uci

structure Change where
  name : OptionName
  value : String
  outcome : Outcome

/-- One `if (… != '')` block: the answer overwrites the flag, and without an
answer it stays. -/
def setOption (s : Node × Bool) (c : Change) : Node × Bool :=
  if c.value ≠ "" then
    let (node, result) := deliver s.1 (.set c.name c.value) c.outcome
    (node, result.getD s.2)
  else s

structure Edit where
  channel : String
  htmode : String
  txpower : String

structure Outcomes where
  channel : Outcome
  htmode : Outcome
  txpower : Outcome
  commit : Outcome
  revert : Outcome

def savedMessage : String := "保存成功！"

def failedMessage : String := "保存失败请重试！"

def channelOption : OptionName := ⟨"wireless", "radio0", "channel"⟩

def htmodeOption : OptionName := ⟨"wireless", "radio0", "htmode"⟩

def txpowerOption : OptionName := ⟨"wireless", "radio0", "txpower"⟩

/-- The node afterwards, and the messages shown. -/
def saveWirelessChanges (node : Node) (e : Edit) (o : Outcomes) : Node × List String :=
  let s := setOption (node, true) ⟨channelOption, e.channel, o.channel⟩
  let s := setOption s ⟨htmodeOption, e.htmode, o.htmode⟩
  let s := setOption s ⟨txpowerOption, e.txpower, o.txpower⟩
  if s.2 then
    if e.channel ≠ "" ∨ e.htmode ≠ "" ∨ e.txpower ≠ "" then
      let (node, result) := deliver s.1 (.commit "wireless") o.commit
      match result with
      | some true => (node, [savedMessage])
      | some false => (node, [failedMessage])
      | none => (node, [])
    else (s.1, [savedMessage])
  else
    let (node, _) := deliver s.1 (.revert "wireless") o.revert
    (node, [failedMessage])

def setAll (s : Node × Bool) (cs : List Change) : Node × Bool := cs.foldl setOption s

theorem setAll_cons (s : Node × Bool) (c : Change) (cs : List Change) :
    setAll s (c :: cs) = setAll (setOption s c) cs := rfl

theorem setOption_committed (s : Node × Bool) (c : Change) :
    (setOption s c).1.committed = s.1.committed := by
  unfold setOption deliver
  split_ifs <;> rfl

theorem setAll_committed (s : Node × Bool) (cs : List Change) :
    (setAll s cs).1.committed = s.1.committed := by
  induction cs generalizing s with
  | nil => rfl
  | cons c cs ih => rw [setAll_cons, ih, setOption_committed]

/-- The change was sent and the node applied it. -/
def Change.Applied (c : Change) : Prop := c.value ≠ "" ∧ c.outcome.applied = true

theorem setOption_staged (s : Node × Bool) (c : Change) (h : c.Applied) :
    (setOption s c).1.staged c.name = some c.value := by
  simp [setOption, deliver, h.1, h.2, Node.apply]

theorem setOption_frame (s : Node × Bool) (c : Change) {name : OptionName}
    (h : c.Applied → c.name ≠ name) : (setOption s c).1.staged name = s.1.staged name := by
  unfold setOption deliver
  split_ifs with hv ho
  · exact Function.update_of_ne (h ⟨hv, ho⟩).symm _ _
  · rfl
  · rfl

theorem setAll_frame (s : Node × Bool) {cs : List Change} {name : OptionName}
    (h : ∀ c ∈ cs, c.Applied → c.name ≠ name) : (setAll s cs).1.staged name = s.1.staged name := by
  induction cs generalizing s with
  | nil => rfl
  | cons c cs ih =>
    rw [setAll_cons, ih _ fun d hd => h d (List.mem_cons_of_mem c hd)]
    exact setOption_frame s c (h c List.mem_cons_self)

theorem setAll_staged (s : Node × Bool) {cs : List Change} (hnodup : (cs.map Change.name).Nodup)
    {c : Change} (hc : c ∈ cs) (h : c.Applied) : (setAll s cs).1.staged c.name = some c.value := by
  induction cs generalizing s with
  | nil => cases hc
  | cons d cs ih =>
    obtain ⟨hd, hrest⟩ := List.nodup_cons.mp hnodup
    rw [setAll_cons]
    rcases List.mem_cons.mp hc with rfl | hc
    · have hlater : ∀ e ∈ cs, e.Applied → e.name ≠ c.name := fun e he _ heq =>
        hd (List.mem_map.mpr ⟨e, he, heq⟩)
      rw [setAll_frame _ hlater]
      exact setOption_staged s c h
    · exact ih _ hrest hc

/-- The last answer to a change that was sent; success if there was none. -/
def lastAnswer (cs : List Change) : Bool :=
  ((cs.filter fun c => c.value ≠ "").filterMap fun c => c.outcome.answer).getLast?.getD true

theorem setOption_flag (s : Node × Bool) (c : Change) :
    (setOption s c).2 = if c.value ≠ "" then c.outcome.answer.getD s.2 else s.2 := by
  unfold setOption deliver
  split_ifs <;> rfl

theorem setAll_flag (s : Node × Bool) (cs : List Change) :
    (setAll s cs).2 =
      ((cs.filter fun c => c.value ≠ "").filterMap fun c => c.outcome.answer).getLast?.getD s.2 := by
  induction cs generalizing s with
  | nil => rfl
  | cons c cs ih =>
    rw [setAll_cons, ih, setOption_flag]
    by_cases hv : c.value = ""
    · simp [hv]
    · cases ha : c.outcome.answer with
      | none => simp [hv, ha]
      | some b =>
        have hsent : (c :: cs).filter (fun c => c.value ≠ "") =
            c :: cs.filter fun c => c.value ≠ "" := List.filter_cons_of_pos (by simpa using hv)
        have hanswers : (c :: cs.filter fun c => c.value ≠ "").filterMap (fun c => c.outcome.answer) =
            b :: (cs.filter fun c => c.value ≠ "").filterMap fun c => c.outcome.answer :=
          List.filterMap_cons_some ha
        rw [if_pos hv, hsent, hanswers, List.getLast?_cons]
        rfl

/-- A change that the node did not get and did not already have. -/
def Missed (config : Config) (cs : List Change) : Prop :=
  ∃ c ∈ cs, c.value ≠ "" ∧ c.outcome.applied = false ∧ config c.name ≠ some c.value

/-- A change that the node got and did not already have. -/
def Touched (config : Config) (cs : List Change) : Prop :=
  ∃ c ∈ cs, c.value ≠ "" ∧ c.outcome.applied = true ∧ config c.name ≠ some c.value

def AllApplied (config : Config) (cs : List Change) : Prop :=
  ∀ c ∈ cs, c.value ≠ "" → config c.name = some c.value

section Commit
variable (config : Config) {cs : List Change} (hnodup : (cs.map Change.name).Nodup)
  (hpackage : ∀ c ∈ cs, c.name.package = "wireless")

def committed (config : Config) (cs : List Change) : Config :=
  overlay "wireless" (setAll (Node.fresh config, true) cs).1.staged config

include hnodup hpackage

theorem committed_applied {c : Change} (hc : c ∈ cs) (h : c.Applied) :
    committed config cs c.name = some c.value := by
  rw [committed, overlay, if_pos (hpackage c hc), setAll_staged _ hnodup hc h, Option.some_or]

theorem committed_missed {c : Change} (hc : c ∈ cs) (h : ¬ c.Applied) :
    committed config cs c.name = config c.name := by
  have hothers : ∀ d ∈ cs, d.Applied → d.name ≠ c.name := by
    intro d hd happlied heq
    obtain rfl := List.inj_on_of_nodup_map hnodup hd hc heq
    exact h happlied
  rw [committed, overlay, if_pos (hpackage c hc), setAll_frame _ hothers]
  rfl

theorem allApplied_iff : AllApplied (committed config cs) cs ↔ ¬ Missed config cs := by
  constructor
  · rintro hall ⟨c, hc, hv, happlied, hne⟩
    have hmissed : ¬ c.Applied := fun h => by simp [h.2] at happlied
    exact hne ((committed_missed config hnodup hpackage hc hmissed).symm.trans (hall c hc hv))
  · intro hno c hc hv
    by_cases h : c.Applied
    · exact committed_applied config hnodup hpackage hc h
    · rw [committed_missed config hnodup hpackage hc h]
      by_contra hne
      exact hno ⟨c, hc, hv, by simpa [Change.Applied, hv] using h, hne⟩

theorem unchanged_iff : committed config cs = config ↔ ¬ Touched config cs := by
  constructor
  · rintro heq ⟨c, hc, hv, happlied, hne⟩
    have h := committed_applied config hnodup hpackage hc ⟨hv, happlied⟩
    rw [heq] at h
    exact hne h
  · intro hno
    funext name
    by_cases hname : ∃ c ∈ cs, c.Applied ∧ c.name = name
    · obtain ⟨c, hc, h, rfl⟩ := hname
      rw [committed_applied config hnodup hpackage hc h]
      by_contra hne
      exact hno ⟨c, hc, h.1, h.2, fun heq => hne heq.symm⟩
    · have hothers : ∀ c ∈ cs, c.Applied → c.name ≠ name := fun c hc h heq =>
        hname ⟨c, hc, h, heq⟩
      rw [committed, overlay, setAll_frame _ hothers]
      exact ite_self _

end Commit

def changes (e : Edit) (o : Outcomes) : List Change :=
  [⟨channelOption, e.channel, o.channel⟩, ⟨htmodeOption, e.htmode, o.htmode⟩,
    ⟨txpowerOption, e.txpower, o.txpower⟩]

/-- The edit is in the configuration, or the configuration is as it was; and
success is announced only for the former. -/
def AllOrNothing (config : Config) (cs : List Change) (result : Node × List String) : Prop :=
  (result.1.committed = config ∨ AllApplied result.1.committed cs) ∧
  (savedMessage ∈ result.2 → AllApplied result.1.committed cs)

section Save
variable (config : Config) (e : Edit) (o : Outcomes)

theorem changes_nodup : ((changes e o).map Change.name).Nodup := by
  have hnames : (changes e o).map Change.name = [channelOption, htmodeOption, txpowerOption] := rfl
  rw [hnames]
  decide

theorem changes_package : ∀ c ∈ changes e o, c.name.package = "wireless" := by
  intro c hc
  simp only [changes, List.mem_cons, List.not_mem_nil, or_false] at hc
  rcases hc with rfl | rfl | rfl <;> rfl

theorem messages_ne : savedMessage ≠ failedMessage := by decide

theorem save_result :
    saveWirelessChanges (Node.fresh config) e o =
      (let s := setAll (Node.fresh config, true) (changes e o)
      if lastAnswer (changes e o) = true then
        if e.channel ≠ "" ∨ e.htmode ≠ "" ∨ e.txpower ≠ "" then
          ((deliver s.1 (.commit "wireless") o.commit).1,
            match o.commit with
            | .accepted => [savedMessage]
            | .refused => [failedMessage]
            | .lost _ => [])
        else (s.1, [savedMessage])
      else ((deliver s.1 (.revert "wireless") o.revert).1, [failedMessage])) := by
  have hflag : (setAll (Node.fresh config, true) (changes e o)).2 = lastAnswer (changes e o) :=
    setAll_flag _ _
  rw [← hflag]
  unfold saveWirelessChanges
  cases o.commit <;> rfl

theorem allApplied_of_empty (hempty : e.channel = "" ∧ e.htmode = "" ∧ e.txpower = "") :
    AllApplied config (changes e o) := by
  intro c hc hv
  simp only [changes, List.mem_cons, List.not_mem_nil, or_false] at hc
  rcases hc with rfl | rfl | rfl
  · exact absurd hempty.1 hv
  · exact absurd hempty.2.1 hv
  · exact absurd hempty.2.2 hv

theorem missed_iff_not (h : AllApplied config (changes e o)) : ¬ Missed config (changes e o) := by
  rintro ⟨c, hc, hv, -, hne⟩
  exact hne (h c hc hv)

/-- The edit is all or nothing unless the last answer was a success, a change
was missed, and the commit went through: with an answer, or unseen after some
other change had reached the node. -/
theorem allOrNothing_iff :
    AllOrNothing config (changes e o) (saveWirelessChanges (Node.fresh config) e o) ↔
      ¬ (lastAnswer (changes e o) = true ∧ Missed config (changes e o) ∧
        (o.commit = .accepted ∨ (o.commit = .lost true ∧ Touched config (changes e o)))) := by
  have hkept : (setAll (Node.fresh config, true) (changes e o)).1.committed = config :=
    setAll_committed _ _
  have happlied := allApplied_iff config (changes_nodup e o) (changes_package e o)
  have hunchanged := unchanged_iff config (changes_nodup e o) (changes_package e o)
  have hcommit : ((setAll (Node.fresh config, true) (changes e o)).1.apply
      (.commit "wireless")).committed = committed config (changes e o) := by
    rw [Node.apply, hkept]
    rfl
  rw [save_result]
  dsimp only
  split_ifs with hlast hsent
  · cases hc : o.commit with
    | accepted =>
      simp only [deliver, Outcome.applied, if_true, AllOrNothing, hcommit, happlied, hunchanged]
      simp [hlast]
      tauto
    | refused =>
      simp [deliver, Outcome.applied, AllOrNothing, hkept, messages_ne]
    | lost applied =>
      cases applied with
      | false => simp [deliver, Outcome.applied, AllOrNothing, hkept]
      | true =>
        simp only [deliver, Outcome.applied, if_true, AllOrNothing, hcommit, happlied, hunchanged]
        simp [hlast]
        tauto
  · have hempty : e.channel = "" ∧ e.htmode = "" ∧ e.txpower = "" := by
      simpa [not_or] using hsent
    have hall := allApplied_of_empty config e o hempty
    refine iff_of_true ⟨Or.inl hkept, fun _ => by rwa [hkept]⟩ ?_
    exact fun h => missed_iff_not config e o hall h.2.1
  · refine iff_of_true ⟨Or.inl ?_, fun hm => ?_⟩ fun h => hlast h.1
    · simp only [deliver]
      split_ifs
      · exact hkept
      · exact hkept
    · simp [messages_ne] at hm

end Save

def oldConfig : Config := fun name => if name = channelOption then some "1" else none

/-- The channel is refused, the mode behind it accepted, and both are reported
as saved. -/
theorem refused_channel_reported :
    ¬ AllOrNothing oldConfig
      (changes ⟨"6", "HT40", ""⟩ ⟨.refused, .accepted, .accepted, .accepted, .accepted⟩)
      (saveWirelessChanges (Node.fresh oldConfig) ⟨"6", "HT40", ""⟩
        ⟨.refused, .accepted, .accepted, .accepted, .accepted⟩) := by
  rintro ⟨-, hsaved⟩
  have hchannel := hsaved (by decide) ⟨channelOption, "6", .refused⟩ List.mem_cons_self (by decide)
  revert hchannel
  decide

end NexFi.WirelessEdit
