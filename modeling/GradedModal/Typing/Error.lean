import GradedModal.Logic.Value
import GradedModal.Report.Diagnostic
import GradedModal.Syntax.Expr

/-!
This module contains the errors of checking and their wording.
-/

namespace GradedModal

inductive Misuse where
  /-- It is never consumed. -/
  | unused
  /-- It is consumed more than once. -/
  | duplicated
  /-- It is linear on one side of a comparison and graded on the other. -/
  | mixed
  deriving DecidableEq, Repr, Inhabited

def Misuse.render (m : Misuse) (names : String) : String :=
  match m with
  | .unused => "linear variable " ++ names ++ " is not used exactly once"
  | .duplicated => "linear variable " ++ names ++ " is used more than once"
  | .mixed => "variable " ++ names ++ " is linear in one place and graded in another"

inductive Cause where
  | notInScope (name : String)
  | kindMismatch (expected actual : Kind)
  | gradeKindMismatch (expected actual : GradeKind)
  | unboundTypeVar (name : String)
  | notAGrade (name : String) (kind : Kind)
  | typeMismatch (expected actual : Ty)
  | rigidTypeVar (name : String) (ty : Ty)
  | noUpperBound (left right : Ty)
  | notAFunction (ty : Ty)
  | notEffectful (ty : Ty)
  | patternMismatch (pattern : Pattern) (ty : Ty)
  | noMatchingOperator (op : BinOp) (left right : Ty)
  | cannotSynthesize
  | linearity (names : List String) (misuse : Misuse)
  | effectMismatch (expected actual : List String)
  | constraintViolation (definition : String) (counterexample : List (String × Value)) (falsified : List Constraint)
  | prover (message : String)
  /-- The comparison of two types does not come to an end. -/
  | endlessComparison (left right : Ty)
  deriving Repr, Inhabited

def quoted (text : String) : String :=
  "\"" ++ text ++ "\""

def renderEffects (effects : List String) : String :=
  "<" ++ ", ".intercalate effects ++ ">"

namespace Cause

def message : Cause → String
  | .notInScope name => quoted name ++ " is not in scope"
  | .kindMismatch expected actual =>
    "expected kind " ++ quoted expected.render ++ ", got kind " ++ quoted actual.render
  | .gradeKindMismatch expected actual =>
    "cannot use a grade of kind " ++ quoted actual.render ++ " where " ++ quoted expected.render ++ " is expected"
  | .unboundTypeVar name => "type variable " ++ quoted name ++ " is not in scope"
  | .notAGrade name kind => quoted name ++ " has kind " ++ quoted kind.render ++ ", which is not a grade"
  | .typeMismatch expected actual =>
    "expected type " ++ quoted expected.render ++ ", got type " ++ quoted actual.render
  | .rigidTypeVar name ty =>
    "cannot unify universally quantified " ++ quoted name ++ " with " ++ quoted ty.render
  | .noUpperBound left right =>
    "types " ++ quoted left.render ++ " and " ++ quoted right.render ++ " have no upper bound"
  | .notAFunction ty => "expected a function, got type " ++ quoted ty.render
  | .notEffectful ty => "expected an effectful type, got type " ++ quoted ty.render
  | .patternMismatch pattern ty =>
    "pattern " ++ quoted pattern.render ++ " cannot match type " ++ quoted ty.render
  | .noMatchingOperator op left right =>
    "no instance of " ++ quoted op.render ++ " for " ++ quoted left.render ++ " and " ++ quoted right.render
  | .cannotSynthesize => "type cannot be calculated here"
  | .linearity names misuse => misuse.render (", ".intercalate (names.map quoted))
  | .effectMismatch expected actual =>
    "expected effects " ++ quoted (renderEffects expected) ++ ", got effects " ++ quoted (renderEffects actual)
  | .constraintViolation definition _ _ => "grades in " ++ quoted definition ++ " are not satisfiable"
  | .prover message => "prover error: " ++ message
  | .endlessComparison left right =>
    "types " ++ quoted left.render ++ " and " ++ quoted right.render ++ " cannot be compared"

def isShape : Cause → Bool
  | .typeMismatch _ _ => true
  | .rigidTypeVar _ _ => true
  | .noUpperBound _ _ => true
  | .kindMismatch _ _ => true
  | .gradeKindMismatch _ _ => true
  | .notAFunction _ => true
  | .patternMismatch _ _ => true
  | _ => false

def details : Cause → List String
  | .constraintViolation _ counterexample falsified =>
    let hints := falsified.map fun c => "hint: " ++ quoted c.render ++ " is false"
    let values := counterexample.map fun (x, v) => x ++ " = " ++ v.render
    hints ++ (if values.isEmpty then [] else ["falsified when " ++ ", ".intercalate values])
  | _ => []

end Cause

inductive Hint where
  | comparing (expected actual : Ty)
  | checking (ty : Ty)
  deriving Repr, Inhabited

def Hint.render : Hint → String
  | .comparing expected actual => "While comparing " ++ quoted actual.render ++ " with " ++ quoted expected.render
  | .checking ty => "While checking against " ++ quoted ty.render

structure Error where
  position : Option Nat
  cause : Cause
  hint : Option Hint
  deriving Repr, Inhabited

namespace Error

def ofCause (pos : Nat) (cause : Cause) : Error :=
  ⟨some pos, cause, none⟩

def withPosition (e : Error) (pos : Nat) : Error :=
  { e with position := e.position.or (some pos) }

/-- The innermost hint is kept. -/
def withHint (e : Error) (hint : Hint) : Error :=
  { e with hint := e.hint.or (some hint) }

def message (e : Error) : String :=
  e.cause.message

def addendum (e : Error) : Option String :=
  let lines := e.cause.details ++ (e.hint.map Hint.render).toList
  if lines.isEmpty then none else some ("\n".intercalate lines)

/-- Only a prover may answer differently when asked again. -/
def isRetryable (e : Error) : Bool :=
  match e.cause with
  | .prover _ => true
  | _ => false

def report (e : Error) (source : Report.Source) : Report.Diagnostic :=
  Report.Diagnostic.empty.add (some ⟨source, some (e.position.getD 0)⟩) ⟨e.message, e.addendum⟩

end Error
end GradedModal
