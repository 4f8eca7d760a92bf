import GradedModal.Logic.Search
import GradedModal.Solver.SExpr

/-!
This module reads what a solver answers to a script.
-/

namespace GradedModal
namespace Answer

def number? : SExpr → Option Float
  | .atom text => Decimal.read? text
  | .list [.atom "-", e] => do return -(← number? e)
  | .list [.atom "/", a, b] => do return (← number? a) / (← number? b)
  | .list _ => none

def value (kind : GradeKind) (x : Float) : Value :=
  match kind with
  | .float => .float x
  | .level => .level (if x ≤ 0 then .unused else if x ≤ 1 then .visible else .secret)
  | _ => .nat (if x > 0 then x.toUInt64.toNat else 0)

def valueOf? (q : Query) : SExpr → Option (String × Value)
  | .list [.atom x, e] => do
    let kind ← q.universals.lookup x
    return (x, value kind (← number? e))
  | _ => none

def counterexample (q : Query) (text : String) : List (String × Value) :=
  match (SExpr.parse (SExpr.tokens text) 0).1 with
  | some (.list entries) => entries.filterMap (valueOf? q)
  | _ => []

def trim (line : String) : String :=
  let cs := line.toList.dropWhile SExpr.isBlank
  String.ofList (cs.reverse.dropWhile SExpr.isBlank).reverse

def lines (text : String) : List String :=
  ((text.splitOn "\n").map trim).filter (!·.isEmpty)

end Answer

def Query.interpret (q : Query) (output : String) : Verdict :=
  match Answer.lines output with
  | [] => .undecided .noOutput
  | "unsat" :: _ => .valid
  | "sat" :: rest => .invalid (Answer.counterexample q (" ".intercalate rest))
  | answer :: _ => .undecided (.answered answer)

end GradedModal
