import GradedModal.Syntax.Ty

/-!
This module contains constraints between grades and the predicates that checking collects.
-/

namespace GradedModal

inductive Relation where
  | eq
  | le
  deriving DecidableEq, Repr, Inhabited

def Relation.render : Relation → String
  | .eq => "="
  | .le => "<="

/--
How a variable is to be quantified: for all values, by a choice of the solver, or for all values that a
pattern can match.
-/
inductive Quantifier where
  | universal
  | instantiated
  | patternBound
  deriving DecidableEq, Repr, Inhabited

structure Constraint where
  pos : Nat
  relation : Relation
  left : Grade
  right : Grade
  kind : GradeKind
  deriving BEq, DecidableEq, Repr, Inhabited

namespace Constraint

def eq (pos : Nat) (left right : Grade) (kind : GradeKind) : Constraint :=
  ⟨pos, .eq, left, right, kind⟩

def le (pos : Nat) (left right : Grade) (kind : GradeKind) : Constraint :=
  ⟨pos, .le, left, right, kind⟩

def vars (c : Constraint) : List String :=
  (c.left.occurrences ++ c.right.occurrences).eraseDups

def mentions (c : Constraint) (x : String) : Bool :=
  c.vars.contains x

def render (c : Constraint) : String :=
  c.left.render ++ " " ++ c.relation.render ++ " " ++ c.right.render ++ " : " ++ c.kind.render

end Constraint

inductive Predicate where
  | atom (c : Constraint)
  | conj (items : List Predicate)
  /-- The antecedent implies the consequent for all values of the bound variables. -/
  | impl (bound : List (String × Kind)) (antecedent consequent : Predicate)
  deriving Repr, Inhabited

namespace Predicate

mutual

def isTrivial : Predicate → Bool
  | .atom _ => false
  | .conj items => areTrivial items
  | .impl _ _ consequent => consequent.isTrivial

def areTrivial : List Predicate → Bool
  | [] => true
  | p :: ps => p.isTrivial && areTrivial ps

end

mutual

def constraints : Predicate → List Constraint
  | .atom c => [c]
  | .conj items => constraintsAll items
  | .impl _ antecedent consequent => antecedent.constraints ++ consequent.constraints

def constraintsAll : List Predicate → List Constraint
  | [] => []
  | p :: ps => p.constraints ++ constraintsAll ps

end

mutual

def boundVars : Predicate → List String
  | .atom _ => []
  | .conj items => boundVarsAll items
  | .impl bound antecedent consequent => bound.map (·.1) ++ antecedent.boundVars ++ consequent.boundVars

def boundVarsAll : List Predicate → List String
  | [] => []
  | p :: ps => p.boundVars ++ boundVarsAll ps

end

def mentions (p : Predicate) (x : String) : Bool :=
  p.constraints.any (·.mentions x)

def isAtom : Predicate → Bool
  | .atom _ => true
  | _ => false

def renderBinder (b : String × Kind) : String :=
  " (" ++ b.1 ++ " : " ++ b.2.render ++ ")"

mutual

def render : Predicate → String
  | .atom c => c.render
  | .conj items => if items.isEmpty then "true" else " && ".intercalate (renderAll items)
  | .impl bound antecedent consequent =>
    let binders := if bound.isEmpty then "" else "forall" ++ String.join (bound.map renderBinder) ++ ". "
    binders ++ antecedent.render ++ " -> " ++ consequent.render

def renderAll : List Predicate → List String
  | [] => []
  | p :: ps => (if p.isAtom then p.render else "(" ++ p.render ++ ")") :: renderAll ps

end

end Predicate
end GradedModal
