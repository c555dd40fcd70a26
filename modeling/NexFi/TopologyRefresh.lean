import Mathlib.Data.List.Induction
import NexFi.TopologyHistory

/-!
# Refreshes with their replies in flight

A refresh is two requests in a row: the reply of `/topo/vis` sends the one of
`/topo/position`, and the reply of that clears and draws. Nothing numbers the
refreshes or drops a late reply, so the graph belongs to the refresh whose
second reply came last, which need not be the one issued last.
-/

namespace NexFi.Topology
open GoJson

/-- Where a refresh stands. From its first reply on its callback holds the document. -/
inductive Phase
  | awaitingVis
  | awaitingPosition (vis : List VisEntry)
  | drawn (vis : List VisEntry)

structure Browser where
  page : Page
  refreshes : List Phase

inductive Action
  | getVisJSON
  | visReply (i : ℕ) (vis : List VisEntry)
  | positionReply (i : ℕ) (posData : VisPositionData) (getNodeDetail : String → Option String)

def Action.IsPositionReply : Action → Prop
  | .positionReply _ _ _ => True
  | _ => False

namespace Browser

def step (b : Browser) : Action → Option Browser
  | .getVisJSON => some { b with refreshes := b.refreshes ++ [.awaitingVis] }
  | .visReply i vis =>
    match b.refreshes[i]? with
    | some .awaitingVis => some { b with refreshes := b.refreshes.set i (.awaitingPosition vis) }
    | _ => none
  | .positionReply i posData getNodeDetail =>
    match b.refreshes[i]? with
    | some (.awaitingPosition vis) =>
      some ⟨(b.page.redraw ⟨vis, posData, getNodeDetail⟩).1, b.refreshes.set i (.drawn vis)⟩
    | _ => none

def run (b : Browser) : List Action → Option Browser
  | [] => some b
  | action :: actions => (b.step action).bind fun next => next.run actions

def start : Browser := ⟨Page.empty, []⟩

def Settled (b : Browser) : Prop := ∀ phase ∈ b.refreshes, ∃ vis, phase = .drawn vis

/-- The graph is a drawing of the document that refresh `i` fetched. -/
def Shows (b : Browser) (i : ℕ) : Prop :=
  ∃ vis posData getNodeDetail old, b.refreshes[i]? = some (.drawn vis) ∧
    b.page = (Page.redraw old ⟨vis, posData, getNodeDetail⟩).1

theorem run_append (b : Browser) (before after : List Action) :
    b.run (before ++ after) = (b.run before).bind fun next => next.run after := by
  induction before generalizing b with
  | nil => rfl
  | cons action before ih =>
    simp only [List.cons_append, run, Option.bind_assoc]
    exact congrArg (b.step action).bind (funext fun next => ih next)

theorem run_concat {b last : Browser} {actions : List Action} {action : Action}
    (h : b.run (actions ++ [action]) = some last) :
    ∃ next, b.run actions = some next ∧ next.step action = some last := by
  rw [run_append] at h
  obtain ⟨next, hnext, hlast⟩ := Option.bind_eq_some_iff.mp h
  refine ⟨next, hnext, ?_⟩
  simpa only [run, Option.bind_fun_some] using hlast

theorem drawn_issued (refreshes : List Phase) (i : ℕ) (vis : List VisEntry) :
    (refreshes ++ [Phase.awaitingVis])[i]? = some (.drawn vis) ↔
      refreshes[i]? = some (Phase.drawn vis) := by
  rcases Nat.lt_trichotomy i refreshes.length with hlt | heq | hgt
  · rw [List.getElem?_append_left hlt]
  · subst heq
    simp
  · have hlength : (refreshes ++ [Phase.awaitingVis]).length ≤ i := by
      rw [List.length_append, List.length_singleton]
      omega
    rw [List.getElem?_eq_none hlength, List.getElem?_eq_none hgt.le]

theorem drawn_answered {refreshes : List Phase} {i : ℕ}
    (h : refreshes[i]? = some Phase.awaitingVis) (answer : List VisEntry) (j : ℕ)
    (vis : List VisEntry) :
    (refreshes.set i (.awaitingPosition answer))[j]? = some (.drawn vis) ↔
      refreshes[j]? = some (Phase.drawn vis) := by
  by_cases hij : i = j
  · subst hij
    obtain ⟨hlt, -⟩ := List.getElem?_eq_some_iff.mp h
    rw [h, List.getElem?_set_self hlt]
    simp
  · rw [List.getElem?_set_ne hij]

theorem step_cases {b b' : Browser} {action : Action} (h : b.step action = some b') :
    (∃ i vis posData getNodeDetail, action = .positionReply i posData getNodeDetail ∧
      b'.refreshes[i]? = some (.drawn vis) ∧
      b'.page = (b.page.redraw ⟨vis, posData, getNodeDetail⟩).1) ∨
    (¬ action.IsPositionReply ∧ b'.page = b.page ∧
      ∀ (i : ℕ) (vis : List VisEntry),
        b'.refreshes[i]? = some (Phase.drawn vis) ↔ b.refreshes[i]? = some (Phase.drawn vis)) := by
  cases action with
  | getVisJSON =>
    cases h
    exact Or.inr ⟨id, rfl, drawn_issued b.refreshes⟩
  | visReply i vis =>
    simp only [step] at h
    split at h
    · next hphase =>
      cases h
      exact Or.inr ⟨id, rfl, drawn_answered hphase vis⟩
    · cases h
  | positionReply i posData getNodeDetail =>
    simp only [step] at h
    split at h
    · next vis hphase =>
      cases h
      obtain ⟨hlt, -⟩ := List.getElem?_eq_some_iff.mp hphase
      exact Or.inl ⟨i, vis, posData, getNodeDetail, rfl, List.getElem?_set_self hlt, rfl⟩
    · cases h

/-- After any run either no position reply has come and nothing is drawn, or the
page is the drawing that the last one made. -/
theorem run_shows {b : Browser} {actions : List Action} (h : start.run actions = some b) :
    (∀ (i : ℕ) (vis : List VisEntry), b.refreshes[i]? ≠ some (Phase.drawn vis)) ∨
    ∃ before i posData getNodeDetail after vis old,
      actions = before ++ Action.positionReply i posData getNodeDetail :: after ∧
      (∀ action ∈ after, ¬ action.IsPositionReply) ∧ b.refreshes[i]? = some (.drawn vis) ∧
      b.page = (Page.redraw old ⟨vis, posData, getNodeDetail⟩).1 := by
  induction actions using List.reverseRecOn generalizing b with
  | nil =>
    cases h
    exact Or.inl fun i vis hdrawn => by simp [start] at hdrawn
  | append_singleton actions action ih =>
    obtain ⟨next, hnext, hstep⟩ := run_concat h
    rcases step_cases hstep with ⟨i, vis, posData, getNodeDetail, rfl, hi, hpage⟩ |
      ⟨hother, hpage, hsame⟩
    · exact Or.inr ⟨actions, i, posData, getNodeDetail, [], vis, next.page, rfl, by simp, hi, hpage⟩
    · rcases ih hnext with hnone | ⟨before, i, posData, getNodeDetail, after, vis, old, heq, hafter,
        hi, hold⟩
      · exact Or.inl fun i vis hdrawn => hnone i vis ((hsame i vis).mp hdrawn)
      · refine Or.inr ⟨before, i, posData, getNodeDetail, after ++ [action], vis, old, ?_, ?_,
          (hsame i vis).mpr hi, hpage.trans hold⟩
        · rw [heq, List.append_assoc, List.cons_append]
        · intro a ha
          rcases List.mem_append.mp ha with ha | ha
          · exact hafter a ha
          · rwa [List.mem_singleton.mp ha]

/-- Once every reply has arrived the graph is the drawing of the document of the
refresh whose position reply came last. -/
theorem last_position_reply_wins (actions : List Action) (b : Browser)
    (h : start.run actions = some b) (hsettled : b.Settled) (hissued : b.refreshes ≠ []) :
    ∃ before i posData getNodeDetail after,
      actions = before ++ Action.positionReply i posData getNodeDetail :: after ∧
      (∀ action ∈ after, ¬ action.IsPositionReply) ∧ b.Shows i := by
  rcases run_shows h with hnone | ⟨before, i, posData, getNodeDetail, after, vis, old, heq, hafter,
    hi, hpage⟩
  · obtain ⟨phase, rest, hrefreshes⟩ := List.exists_cons_of_ne_nil hissued
    obtain ⟨vis, rfl⟩ := hsettled phase (by simp [hrefreshes])
    exact absurd (by simp [hrefreshes]) (hnone 0 vis)
  · exact ⟨before, i, posData, getNodeDetail, after, heq, hafter, vis, posData, getNodeDetail, old,
      hi, hpage⟩

def alone (mac : Mac) : List VisEntry := [⟨mac, some []⟩]

def overtaken : List Action :=
  [.getVisJSON, .getVisJSON, .visReply 0 (alone macA), .visReply 1 (alone macB),
    .positionReply 1 ⟨none⟩ fun _ => none, .positionReply 0 ⟨none⟩ fun _ => none]

def afterOvertaken : Browser :=
  ⟨⟨[.rect ⟨1, macA.text, macA.text, ⟨50, 50⟩⟩], [(macA.text, 1)], 2⟩,
    [.drawn (alone macA), .drawn (alone macB)]⟩

theorem run_overtaken : start.run overtaken = some afterOvertaken := by
  rfl

theorem settled_afterOvertaken : afterOvertaken.Settled := by
  intro phase hphase
  simp only [afterOvertaken, List.mem_cons, List.not_mem_nil, or_false] at hphase
  rcases hphase with rfl | rfl
  · exact ⟨_, rfl⟩
  · exact ⟨_, rfl⟩

theorem last_position_reply_wins_overtaken :
    ∃ before i posData getNodeDetail after,
      overtaken = before ++ Action.positionReply i posData getNodeDetail :: after ∧
      (∀ action ∈ after, ¬ action.IsPositionReply) ∧ afterOvertaken.Shows i :=
  last_position_reply_wins overtaken afterOvertaken run_overtaken settled_afterOvertaken
    (List.cons_ne_nil _ _)

/-- The refresh issued last need not be the one that is shown. -/
theorem last_refresh_overtaken :
    ¬ ∀ actions b, start.run actions = some b → b.Settled → b.refreshes ≠ [] →
      b.Shows (b.refreshes.length - 1) := by
  intro hwins
  obtain ⟨vis, posData, getNodeDetail, old, hvis, hpage⟩ :=
    hwins overtaken afterOvertaken run_overtaken settled_afterOvertaken (List.cons_ne_nil _ _)
  obtain rfl : alone macB = vis := by simpa [afterOvertaken] using hvis
  have hnames := allNodes_redraw old (f := ⟨alone macB, posData, getNodeDetail⟩) ?_ macB.text
  · rw [← hpage] at hnames
    simp only [afterOvertaken, addressesIn, alone] at hnames
    revert hnames
    decide
  · rw [Page.firstLoop, drawEntries_eq]
    rfl

end Browser
end NexFi.Topology
