/-!
This module contains the kinds of grades and of types.
-/

namespace GradedModal

/--
The kind of a grade. A variable stands for a kind that is not known yet.
-/
inductive GradeKind where
  | nat
  | float
  | level
  | var (name : String)
  deriving DecidableEq, Repr, Inhabited

namespace GradeKind

def render : GradeKind → String
  | .nat => "Nat"
  | .float => "Float"
  | .level => "Level"
  | .var name => "?" ++ name

end GradeKind

/--
The kind of a type. Grades, and the type-level indices that double as grades, have the kind `grade`.
-/
inductive Kind where
  | type
  | effect
  | grade (kind : GradeKind)
  | arrow (a b : Kind)
  deriving DecidableEq, Repr, Inhabited

namespace Kind

def isArrow : Kind → Bool
  | .arrow _ _ => true
  | _ => false

def gradeKind? : Kind → Option GradeKind
  | .grade kind => some kind
  | _ => none

def render : Kind → String
  | .type => "Type"
  | .effect => "Effect"
  | .grade kind => kind.render
  | .arrow a b =>
    let left := if a.isArrow then "(" ++ a.render ++ ")" else a.render
    left ++ " -> " ++ b.render

end Kind
end GradedModal
