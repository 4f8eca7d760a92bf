import GradedModal.Logic.Formula
import GradedModal.Solver.SExpr

/-!
This module writes a query as a script for an SMT solver. The script asks for a counterexample: the
universals become constants, and the negated body is asserted.
-/

namespace GradedModal
namespace Script

open SExpr (app)

def symbol (x : String) : SExpr :=
  .atom ("|" ++ x ++ "|")

def sort (kind : GradeKind) : SExpr :=
  .atom (if kind = .float then "Real" else "Int")

/--
The condition under which a number stands for a value of the kind. Levels are numbered from zero to two.
-/
def range (x : String) : GradeKind → SExpr
  | .float => app ">=" [symbol x, .atom "0.0"]
  | .level => app "and" [app ">=" [symbol x, .atom "0"], app "<=" [symbol x, .atom "2"]]
  | _ => app ">=" [symbol x, .atom "0"]

def ranges (vars : List Bound) : SExpr :=
  app "and" (vars.map fun (x, kind) => range x kind)

def binders (vars : List Bound) : SExpr :=
  .list (vars.map fun (x, kind) => .list [symbol x, sort kind])

/--
A number at a kind: six places for reals, a whole number otherwise.
-/
def literal (kind : GradeKind) (x : Float) : SExpr :=
  .atom (if kind = .float then Decimal.renderFixed 6 x else toString x.toUInt64.toNat)

def larger (a b : SExpr) : SExpr :=
  app "ite" [app ">=" [a, b], a, b]

def smaller (a b : SExpr) : SExpr :=
  app "ite" [app "<=" [a, b], a, b]

def operation (kind : GradeKind) (o : Op) (a b : SExpr) : SExpr :=
  match o with
  | .plus => if kind = .level then larger a b else app "+" [a, b]
  | .times =>
    if kind = .level then
      app "ite" [app "or" [app "=" [a, .atom "0"], app "=" [b, .atom "0"]], .atom "0", larger a b]
    else
      app "*" [a, b]
  | .join => larger a b
  | .meet => smaller a b

def term (kind : GradeKind) : Grade → SExpr
  | .var x => symbol x
  | .nat n => literal kind (Float.ofNat n)
  | .float x => literal .float x
  | .level l => .atom (toString l.rank)
  | .zero _ => literal kind 0
  | .one _ => literal kind 1
  | .op o a b => operation kind o (term kind a) (term kind b)

mutual

def formula : Formula → SExpr
  | .atom c => app c.relation.render [term c.kind c.left, term c.kind c.right]
  | .and items => if items.isEmpty then .atom "true" else app "and" (formulas items)
  | .implies a b => app "=>" [formula a, formula b]
  | .forAll vars body => app "forall" [binders vars, app "=>" [ranges vars, formula body]]
  | .forSome vars body => app "exists" [binders vars, app "and" [ranges vars, formula body]]

def formulas : List Formula → List SExpr
  | [] => []
  | f :: fs => formula f :: formulas fs

end

def commands (q : Query) : List SExpr :=
  let declarations := q.universals.flatMap fun (x, kind) =>
    [app "declare-const" [symbol x, sort kind], app "assert" [range x kind]]
  let values :=
    if q.universals.isEmpty then [] else [app "get-value" [.list (q.universals.map fun (x, _) => symbol x)]]
  declarations ++ [app "assert" [app "not" [formula q.body]], app "check-sat" []] ++ values

end Script

def Query.script (q : Query) : String :=
  String.join ((Script.commands q).map fun c => c.render ++ "\n")

end GradedModal
