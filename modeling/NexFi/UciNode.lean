import Mathlib.Logic.Function.Basic
import Mathlib.Data.List.Basic

/-!
# A remote node with staged changes

A node keeps a committed configuration and the changes staged on top of it. A
call through the proxy is accepted, refused, or lost: a lost call brings no
answer, and the node may have applied it or not.
-/

namespace NexFi.Uci

structure OptionName where
  package : String
  sect : String
  option : String
  deriving DecidableEq

abbrev Config := OptionName → Option String

structure Node where
  committed : Config
  staged : Config

def Node.fresh (config : Config) : Node := ⟨config, fun _ => none⟩

inductive Command
  | set (name : OptionName) (value : String)
  | commit (package : String)
  | revert (package : String)

/-- The committed values with the staged ones of one package over them. -/
def overlay (package : String) (staged committed : Config) : Config := fun name =>
  if name.package = package then (staged name).or (committed name) else committed name

def Node.apply (node : Node) : Command → Node
  | .set name value => { node with staged := Function.update node.staged name (some value) }
  | .commit package =>
    { committed := overlay package node.staged node.committed
      staged := fun name => if name.package = package then none else node.staged name }
  | .revert package =>
    { node with staged := fun name => if name.package = package then none else node.staged name }

inductive Outcome
  | accepted
  | refused
  | lost (applied : Bool)
  deriving DecidableEq

def Outcome.applied : Outcome → Bool
  | .accepted => true
  | .refused => false
  | .lost applied => applied

/-- The `result` the success callback gets, if it runs. -/
def Outcome.answer : Outcome → Option Bool
  | .accepted => some true
  | .refused => some false
  | .lost _ => none

def deliver (node : Node) (command : Command) (outcome : Outcome) : Node × Option Bool :=
  (if outcome.applied then node.apply command else node, outcome.answer)

end NexFi.Uci
