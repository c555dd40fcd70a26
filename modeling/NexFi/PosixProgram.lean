import NexFi.PosixDirectory

/-!
# Programs over file-system calls

A program is a finite tree of calls: each node makes one call and continues
with the reply. The same tree is run to the end on a system of one's choice,
cut after any number of calls with any of them failing, or interleaved with
other programs, so one definition of an operation serves every such question.
-/

namespace NexFi.Posix

inductive Path (ν : Type)
  | location
  | entry (name : ν)
  deriving DecidableEq

inductive Call (ν : Type)
  | stat (path : Path ν)
  | mkdirAll
  | readDir
  | readFile (name : ν)
  | remove (name : ν)
  | create (name : ν)
  | write (file : OpenFile) (b : Bytes)
  deriving DecidableEq

def Call.Value {ν : Type} : Call ν → Type
  | .stat _ => Bool
  | .mkdirAll => Unit
  | .readDir => List (ν × Bool)
  | .readFile _ => Bytes
  | .remove _ => Unit
  | .create _ => OpenFile
  | .write _ _ => OpenFile

abbrev Call.Reply {ν : Type} (c : Call ν) := Except Errno c.Value

variable {ν : Type} [DecidableEq ν] {α β γ : Type}

/-- What a call does when nothing goes wrong. The value of a `stat` says
whether the path is a directory. -/
def perform : (c : Call ν) → Fs ν → c.Reply × Fs ν
  | .stat .location, fs => (if fs.dir.isSome then .ok true else .error .notExist, fs)
  | .stat (.entry n), fs =>
    (match fs.entry n with
      | some (.file _) => .ok false
      | some (.subdir _) => .ok true
      | none => .error .notExist, fs)
  | .mkdirAll, fs => (.ok (), fs.mkdirAll)
  | .readDir, fs =>
    (match fs.dir with
      | some d => .ok (Fs.names d)
      | none => .error .notExist, fs)
  | .readFile n, fs =>
    (match fs.entry n with
      | some (.file i) => .ok (fs.data i)
      | some (.subdir _) => .error .isDir
      | none => .error .notExist, fs)
  | .remove n, fs => fs.remove n
  | .create n, fs => fs.create n
  | .write f b, fs => (.ok (fs.write f b).1, (fs.write f b).2)

/-- A failing call changes nothing, except that a failing write may have
stored some of its bytes, never all of them. -/
def fail (n : ℕ) : (c : Call ν) → Fs ν → c.Reply × Fs ν
  | .write f b, fs => (.error .io, (fs.write f (b.dropLast.take n)).2)
  | _, fs => (.error .io, fs)

def respond (fault : Option ℕ) (c : Call ν) (fs : Fs ν) : c.Reply × Fs ν :=
  match fault with
  | none => perform c fs
  | some n => fail n c fs

inductive Prog (ν : Type) (α : Type)
  | pure (a : α)
  | call (c : Call ν) (k : c.Reply → Prog ν α)

namespace Prog

def bind : Prog ν α → (α → Prog ν β) → Prog ν β
  | .pure a, f => f a
  | .call c k, f => .call c fun r => (k r).bind f

instance : Monad (Prog ν) where
  pure := Prog.pure
  bind := Prog.bind

def op (c : Call ν) : Prog ν c.Reply := .call c .pure

omit [DecidableEq ν] in
@[simp] theorem pure_bind (a : α) (f : α → Prog ν β) : (Prog.pure a >>= f) = f a := rfl

omit [DecidableEq ν] in
@[simp] theorem call_bind (c : Call ν) (k : c.Reply → Prog ν α) (f : α → Prog ν β) :
    (Prog.call c k >>= f) = .call c fun r => k r >>= f := rfl

omit [DecidableEq ν] in
@[simp] theorem op_bind (c : Call ν) (f : c.Reply → Prog ν β) : (op c >>= f) = .call c f := rfl

omit [DecidableEq ν] in
@[simp] theorem return_eq (a : α) : (Pure.pure a : Prog ν α) = .pure a := rfl

omit [DecidableEq ν] in
theorem bind_assoc (p : Prog ν α) (f : α → Prog ν β) (g : β → Prog ν γ) :
    (p >>= f) >>= g = p >>= fun a => f a >>= g := by
  induction p with
  | pure a => rfl
  | call c k ih => exact congrArg (Prog.call c) (funext ih)

/-- The calls as a system answers them: the reply and the state left behind. -/
abbrev System (ν : Type) [DecidableEq ν] := (c : Call ν) → Fs ν → c.Reply × Fs ν

def run (sys : System ν) : Prog ν α → Fs ν → α × Fs ν
  | .pure a, fs => (a, fs)
  | .call c k, fs => run sys (k (sys c fs).1) (sys c fs).2

@[simp] theorem run_pure (sys : System ν) (a : α) (fs : Fs ν) :
    run sys (.pure a) fs = (a, fs) := rfl

theorem run_call (sys : System ν) (c : Call ν) (k : c.Reply → Prog ν α) (fs : Fs ν) :
    run sys (.call c k) fs = run sys (k (sys c fs).1) (sys c fs).2 := rfl

theorem run_bind (sys : System ν) (p : Prog ν α) (f : α → Prog ν β) (fs : Fs ν) :
    run sys (p >>= f) fs = run sys (f (run sys p fs).1) (run sys p fs).2 := by
  induction p generalizing fs with
  | pure a => rfl
  | call c k ih => exact ih (sys c fs).1 (sys c fs).2

/-- One call of a run: the fault that hit it, if any, and whether its reply was
a success. -/
structure Event (ν : Type) where
  call : Call ν
  fault : Option ℕ
  ok : Bool

def event (fault : Option ℕ) (c : Call ν) (fs : Fs ν) : Event ν :=
  ⟨c, fault, (respond fault c fs).1.isOk⟩

/-- `Runs p fs tr q gs`: from `p` on `fs` the calls of `tr` are made, with the
outcomes recorded there, and `q` remains to be done on `gs`. Stopping with
calls left is a crash at that point. -/
inductive Runs : Prog ν α → Fs ν → List (Event ν) → Prog ν α → Fs ν → Prop
  | stop (p : Prog ν α) (fs : Fs ν) : Runs p fs [] p fs
  | step {c : Call ν} {k : c.Reply → Prog ν α} {fs gs : Fs ν} {q : Prog ν α}
      {tr : List (Event ν)} (fault : Option ℕ) :
      Runs (k (respond fault c fs).1) (respond fault c fs).2 tr q gs →
      Runs (.call c k) fs (event fault c fs :: tr) q gs

theorem runs_pure {a : α} {fs gs : Fs ν} {tr : List (Event ν)} {q : Prog ν α}
    (h : Runs (.pure a) fs tr q gs) : tr = [] ∧ q = .pure a ∧ gs = fs := by
  cases h
  exact ⟨rfl, rfl, rfl⟩

theorem runs_call (c : Call ν) (k : c.Reply → Prog ν α) (fault : Option ℕ) (fs : Fs ν) :
    Runs (.call c k) fs [event fault c fs] (k (respond fault c fs).1) (respond fault c fs).2 :=
  .step fault (.stop _ _)

theorem Runs.trans {p q r : Prog ν α} {fs gs hs : Fs ν} {t₁ t₂ : List (Event ν)}
    (h₁ : Runs p fs t₁ q gs) (h₂ : Runs q gs t₂ r hs) : Runs p fs (t₁ ++ t₂) r hs := by
  induction h₁ with
  | stop => exact h₂
  | step fault _ ih => exact .step fault (ih h₂)

theorem Runs.bind {p q : Prog ν α} {fs gs : Fs ν} {tr : List (Event ν)}
    (h : Runs p fs tr q gs) (f : α → Prog ν β) : Runs (p >>= f) fs tr (q >>= f) gs := by
  induction h with
  | stop p fs => exact .stop _ fs
  | step fault _ ih => exact .step fault ih

/-- A cut of a composite falls in its first part, or the first part finished
and the cut falls in the second. -/
theorem runs_bind {p : Prog ν α} {f : α → Prog ν β} {fs gs : Fs ν} {tr : List (Event ν)}
    {q : Prog ν β} (h : Runs (p >>= f) fs tr q gs) :
    (∃ p', Runs p fs tr p' gs ∧ q = (p' >>= f)) ∨
    ∃ a hs t₁ t₂, tr = t₁ ++ t₂ ∧ Runs p fs t₁ (.pure a) hs ∧ Runs (f a) hs t₂ q gs := by
  induction p generalizing fs tr with
  | pure a => exact Or.inr ⟨a, fs, [], tr, rfl, .stop _ _, h⟩
  | call c k ih =>
    cases h with
    | stop => exact Or.inl ⟨_, .stop _ _, rfl⟩
    | step fault h =>
      rcases ih _ h with ⟨p', hp, hq⟩ | ⟨a, hs, t₁, t₂, rfl, hp, hq⟩
      · exact Or.inl ⟨p', .step fault hp, hq⟩
      · exact Or.inr ⟨a, hs, _ :: t₁, t₂, rfl, .step fault hp, hq⟩

def calls : Prog ν α → Fs ν → List (Event ν)
  | .pure _, _ => []
  | .call c k, fs => event none c fs :: calls (k (perform c fs).1) (perform c fs).2

theorem runs_perform (p : Prog ν α) (fs : Fs ν) :
    Runs p fs (calls p fs) (.pure (run perform p fs).1) (run perform p fs).2 := by
  induction p generalizing fs with
  | pure a => exact .stop _ fs
  | call c k ih => exact .step none (ih _ _)

theorem runs_clear {p : Prog ν α} {a : α} {fs gs : Fs ν} (h : run perform p fs = (a, gs)) :
    Runs p fs (calls p fs) (.pure a) gs := by
  have hrun := runs_perform p fs
  rwa [h] at hrun

theorem calls_fault (p : Prog ν α) (fs : Fs ν) : ∀ e ∈ calls p fs, e.fault = none := by
  induction p generalizing fs with
  | pure a => simp [calls]
  | call c k ih => exact List.forall_mem_cons.mpr ⟨rfl, ih _ _⟩

/-- A state property that every recorded call preserves survives the run. -/
theorem Runs.invariant {p q : Prog ν α} {fs gs : Fs ν} {tr : List (Event ν)}
    (h : Runs p fs tr q gs) (I : Fs ν → Prop) (Q : Event ν → Prop) (hfs : I fs)
    (hstep : ∀ fault c hs, I hs → Q (event fault c hs) → I (respond fault c hs).2)
    (htr : ∀ e ∈ tr, Q e) : I gs := by
  induction h with
  | stop => exact hfs
  | step fault _ ih =>
    exact ih (hstep fault _ _ hfs (htr _ List.mem_cons_self))
      fun e he => htr e (List.mem_cons_of_mem _ he)

/-- The calls a program can make at all. -/
def Uses (C : Call ν → Prop) : Prog ν α → Prop
  | .pure _ => True
  | .call c k => C c ∧ ∀ r, Uses C (k r)

omit [DecidableEq ν] in
theorem uses_bind {C : Call ν → Prop} {p : Prog ν α} {f : α → Prog ν β} (hp : p.Uses C)
    (hf : ∀ a, (f a).Uses C) : (p >>= f).Uses C := by
  induction p with
  | pure a => exact hf a
  | call c k ih => exact ⟨hp.1, fun r => ih r (hp.2 r)⟩

theorem Runs.uses {C : Call ν → Prop} {p q : Prog ν α} {fs gs : Fs ν} {tr : List (Event ν)}
    (h : Runs p fs tr q gs) (hp : p.Uses C) : ∀ e ∈ tr, C e.call := by
  induction h with
  | stop => intro e he; cases he
  | step fault _ ih =>
    intro e he
    rcases List.mem_cons.mp he with rfl | he
    · exact hp.1
    · exact ih (hp.2 _) e he

end Prog
end NexFi.Posix
