import GradedModal.Logic.Predicate

/-!
This module compiles predicates into formulas in which every variable stands under a quantifier.
-/

namespace GradedModal

abbrev Bound := String × GradeKind

inductive Formula where
  | atom (c : Constraint)
  | and (items : List Formula)
  | implies (a b : Formula)
  | forAll (vars : List Bound) (body : Formula)
  | forSome (vars : List Bound) (body : Formula)
  deriving Repr, Inhabited

namespace Formula

def mkForAll (vars : List Bound) (body : Formula) : Formula :=
  if vars.isEmpty then body else .forAll vars body

def mkForSome (vars : List Bound) (body : Formula) : Formula :=
  if vars.isEmpty then body else .forSome vars body

def renderBound (b : Bound) : String :=
  "(" ++ b.1 ++ " : " ++ b.2.render ++ ")"

mutual

def render : Formula → String
  | .atom c => c.render
  | .and items => if items.isEmpty then "true" else " && ".intercalate (renderAll items)
  | .implies a b => "(" ++ a.render ++ ") -> (" ++ b.render ++ ")"
  | .forAll vars body => "forall " ++ " ".intercalate (vars.map renderBound) ++ ". " ++ body.render
  | .forSome vars body => "exists " ++ " ".intercalate (vars.map renderBound) ++ ". " ++ body.render

def renderAll : List Formula → List String
  | [] => []
  | f :: fs => ("(" ++ f.render ++ ")") :: renderAll fs

end

end Formula

structure GradeVar where
  name : String
  kind : GradeKind
  quantifier : Quantifier
  deriving DecidableEq, Repr, Inhabited

structure Query where
  universals : List Bound
  body : Formula
  deriving Repr, Inhabited

def Query.formula (q : Query) : Formula :=
  .mkForAll q.universals q.body

namespace Predicate

def canSink (p : Predicate) (x : String) : Bool :=
  match p with
  | .atom _ => false
  | .conj _ => true
  | .impl _ antecedent _ => !antecedent.mentions x

def sinks (items : List Predicate) (x : String) : Bool :=
  match items.filter (·.mentions x) with
  | [item] => item.canSink x
  | _ => false

def bindAll (vars : List GradeVar) (names : List String) : List Bound :=
  names.filterMap fun x => (vars.find? (·.name = x)).map fun v => (x, v.kind)

mutual

/--
Bind the pending variables by existential quantifiers as far inside the predicate as possible, and the
variables of each implication by a universal one. No existential enters an antecedent.
-/
def quantify (vars : List GradeVar) : Predicate → List String → Formula
  | .atom c, pending => .mkForSome (bindAll vars pending) (.atom c)
  | .conj items, pending =>
    let sunk := pending.filter (sinks items)
    let here := pending.filter (!sinks items ·)
    .mkForSome (bindAll vars here) (.and (quantifyAll vars items sunk))
  | .impl bound antecedent consequent, pending =>
    let into := pending.filter (!antecedent.mentions ·)
    let here := pending.filter (antecedent.mentions ·)
    let mentioned := (bound.map (·.1)).filter fun x => antecedent.mentions x || consequent.mentions x
    .mkForSome (bindAll vars here) <| .mkForAll (bindAll vars mentioned) <|
      .implies (quantify vars antecedent []) (quantify vars consequent into)

def quantifyAll (vars : List GradeVar) : List Predicate → List String → List Formula
  | [], _ => []
  | p :: ps, sunk => quantify vars p (sunk.filter (p.mentions ·)) :: quantifyAll vars ps sunk

end

/--
The variables that occur in the predicate, in the order of their first occurrence. One that is not
listed takes the kind of the constraint and is up to the solver.
-/
def mentionedVars (p : Predicate) (vars : List GradeVar) : List GradeVar :=
  p.constraints.foldl (fun seen c => c.vars.foldl (mention c.kind) seen) []
where
  mention (kind : GradeKind) (seen : List GradeVar) (x : String) : List GradeVar :=
    if seen.any (·.name = x) then
      seen
    else
      seen ++ [(vars.find? (·.name = x)).getD ⟨x, kind, .instantiated⟩]

/--
Compile a predicate. Universal variables are quantified outermost, variables of an implication at the
implication, and every other one existentially, in the innermost consequent that contains all of its
occurrences.
-/
def compile (p : Predicate) (vars : List GradeVar) : Query :=
  let mentioned := p.mentionedVars vars
  let universals := mentioned.filter fun v =>
    match v.quantifier with
    | .universal => true
    | .patternBound => !p.boundVars.contains v.name
    | .instantiated => false
  let pending := mentioned.filter (·.quantifier = .instantiated)
  ⟨universals.map fun v => (v.name, v.kind), p.quantify mentioned (pending.map (·.name))⟩

end Predicate
end GradedModal
