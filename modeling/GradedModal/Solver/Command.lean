import GradedModal.Solver.Answer
import GradedModal.Solver.Script

/-!
This module puts queries to a solver that is started as a command of the system.
-/

namespace GradedModal
namespace Solver

structure Command where
  path : String
  /-- How many milliseconds the solver may take. -/
  timeout : Option Nat
  deriving DecidableEq, Repr, Inhabited

-- The timeout is given in whole seconds, at least one.
def Command.args (c : Command) : List String :=
  match c.timeout with
  | some ms => ["-in", "-smt2", "-T:" ++ toString (max (ms / 1000) 1)]
  | none => ["-in", "-smt2"]

structure Finished where
  output : String
  /-- Why the command did not take all of its input. -/
  unwritten : Option String
  deriving DecidableEq, Repr, Inhabited

/--
How the system starts a command, given its path, its arguments and its input. There is a reason if it cannot.
-/
abbrev Start (σ : Type) := String → List String → String → StateM σ (Except String Finished)

-- A solver may end before it has read the whole script. What it printed then still counts.
def Command.run {σ : Type} (c : Command) (start : Start σ) (script : String) : StateM σ (Except String String) := do
  match ← start c.path c.args script with
  | .error reason => return .error reason
  | .ok finished =>
    match finished.unwritten with
    | some reason => if finished.output.isEmpty then return .error reason else return .ok finished.output
    | none => return .ok finished.output

end Solver

def Query.ask {σ : Type} (q : Query) (c : Solver.Command) (start : Solver.Start σ) : StateM σ Verdict := do
  match ← c.run start q.script with
  | .ok output => return q.interpret output
  | .error reason => return .undecided (.couldNotRun c.path reason)

end GradedModal
