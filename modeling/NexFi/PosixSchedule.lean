import NexFi.PosixProgram

/-!
# Programs interleaved by a scheduler

Several programs share one directory; at every step the scheduler lets one of
them make one call. A program can be followed by a machine of explicit phases,
and then the whole board of phases follows the programs over every schedule, so
invariants may speak of phases instead of programs.
-/

namespace NexFi.Posix

structure World (ν ι α : Type) [DecidableEq ν] where
  fs : Fs ν
  threads : ι → Prog ν α

variable {ν ι α P : Type} [DecidableEq ν] [DecidableEq ι]

/-- `i` is done after some part of the schedule in which `j` has not begun. -/
def Precedes (done : List ι → ι → Prop) (schedule : List ι) (i j : ι) : Prop :=
  ∃ pre post, schedule = pre ++ post ∧ done pre i ∧ j ∉ pre

omit [DecidableEq ι] in
theorem precedes_snoc {done : List ι → ι → Prop} {schedule : List ι} {i j k : ι}
    (h : Precedes done (schedule ++ [k]) i j) :
    Precedes done schedule i j ∨ (done (schedule ++ [k]) i ∧ j ∉ schedule ++ [k]) := by
  obtain ⟨pre, post, hsplit, hdone, hj⟩ := h
  rcases List.eq_nil_or_concat post with rfl | ⟨post, k', rfl⟩
  · rw [List.append_nil] at hsplit
    exact Or.inr (hsplit ▸ ⟨hdone, hj⟩)
  · rw [List.concat_eq_append, ← List.append_assoc] at hsplit
    exact Or.inl ⟨pre, post, (List.append_inj' hsplit rfl).1, hdone, hj⟩

namespace World

def step (w : World ν ι α) (i : ι) : World ν ι α :=
  match w.threads i with
  | .pure _ => w
  | .call c k => ⟨(perform c w.fs).2, Function.update w.threads i (k (perform c w.fs).1)⟩

def runAll (w : World ν ι α) (schedule : List ι) : World ν ι α := schedule.foldl step w

def Returned (w : World ν ι α) (i : ι) (a : α) : Prop := w.threads i = .pure a

def Finished (w : World ν ι α) (i : ι) : Prop := ∃ a, w.Returned i a

end World

/-- What a phase does next: return, or make a call and continue by the reply. -/
inductive Move (ν P α : Type)
  | done (a : α)
  | call (c : Call ν) (next : c.Reply → P)

/-- From phase `p` on, the machine makes the calls of the program. -/
inductive Follows (move : P → Move ν P α) : P → Prog ν α → Prop
  | done {p : P} {a : α} : move p = .done a → Follows move p (.pure a)
  | call {p : P} {c : Call ν} {next : c.Reply → P} {k : c.Reply → Prog ν α} :
    move p = .call c next → (∀ r, Follows move (next r) (k r)) → Follows move p (.call c k)

structure Board (ν ι P : Type) [DecidableEq ν] where
  fs : Fs ν
  phases : ι → P

namespace Board
variable (move : ι → P → Move ν P α)

def step (b : Board ν ι P) (i : ι) : Board ν ι P :=
  match move i (b.phases i) with
  | .done _ => b
  | .call c next => ⟨(perform c b.fs).2, Function.update b.phases i (next (perform c b.fs).1)⟩

def runAll (b : Board ν ι P) (schedule : List ι) : Board ν ι P := schedule.foldl (step move) b

theorem runAll_snoc (b : Board ν ι P) (schedule : List ι) (i : ι) :
    b.runAll move (schedule ++ [i]) = (b.runAll move schedule).step move i := by
  simp [runAll]

theorem step_call {b : Board ν ι P} {i : ι} {c : Call ν} {next : c.Reply → P}
    (h : move i (b.phases i) = .call c next) :
    b.step move i = ⟨(perform c b.fs).2, Function.update b.phases i (next (perform c b.fs).1)⟩ := by
  rw [step, h]

theorem step_fs {b : Board ν ι P} {i : ι} {c : Call ν} {next : c.Reply → P}
    (h : move i (b.phases i) = .call c next) : (b.step move i).fs = (perform c b.fs).2 := by
  rw [step_call move h]

theorem step_self {b : Board ν ι P} {i : ι} {c : Call ν} {next : c.Reply → P}
    (h : move i (b.phases i) = .call c next) :
    (b.step move i).phases i = next (perform c b.fs).1 := by
  rw [step_call move h]
  exact Function.update_self _ _ _

theorem step_other (b : Board ν ι P) {i j : ι} (hj : j ≠ i) :
    (b.step move i).phases j = b.phases j := by
  rw [step]
  split
  · rfl
  · exact Function.update_of_ne hj _ _

theorem step_done {b : Board ν ι P} {i : ι} {a : α} (h : move i (b.phases i) = .done a) :
    b.step move i = b := by
  rw [step, h]

end Board

/-- The board shows the phases the programs of the world are in. -/
structure Shows (move : ι → P → Move ν P α) (b : Board ν ι P) (w : World ν ι α) : Prop where
  fs : b.fs = w.fs
  follows : ∀ i, Follows (move i) (b.phases i) (w.threads i)

variable {move : ι → P → Move ν P α}

theorem Shows.step {b : Board ν ι P} {w : World ν ι α} (h : Shows move b w) (i : ι) :
    Shows move (b.step move i) (w.step i) := by
  obtain ⟨hfs, hfollows⟩ := h
  have hi := hfollows i
  cases hw : w.threads i with
  | pure a =>
    rw [hw] at hi
    cases hi with
    | done hmove =>
      rw [Board.step_done move hmove, World.step, hw]
      exact ⟨hfs, hfollows⟩
  | call c k =>
    rw [hw] at hi
    cases hi with
    | call hmove hnext =>
      rw [Board.step_call move hmove, World.step, hw, hfs]
      refine ⟨rfl, fun j => ?_⟩
      by_cases hj : j = i
      · subst hj
        simpa using hnext _
      · simpa [hj] using hfollows j

theorem Shows.runAll {b : Board ν ι P} {w : World ν ι α} (h : Shows move b w)
    (schedule : List ι) : Shows move (b.runAll move schedule) (w.runAll schedule) := by
  induction schedule generalizing b w with
  | nil => exact h
  | cons i schedule ih => exact ih (h.step i)

omit [DecidableEq ι] in
theorem Shows.returned {b : Board ν ι P} {w : World ν ι α} (h : Shows move b w) (i : ι) (a : α) :
    w.Returned i a ↔ move i (b.phases i) = .done a := by
  have hi := h.follows i
  unfold World.Returned
  cases hw : w.threads i with
  | pure a' =>
    rw [hw] at hi
    cases hi with
    | done hmove => simp [hmove]
  | call c k =>
    rw [hw] at hi
    cases hi with
    | call hmove hnext => simp [hmove]

end NexFi.Posix
