import GradedModal.Decimal.Text
import GradedModal.Syntax.Kind
import GradedModal.Syntax.Level

/-!
This module contains grades, types and type schemes, with their text, their variables and substitution.
-/

namespace GradedModal

inductive Op where
  | plus
  | times
  | join
  | meet
  deriving DecidableEq, Repr, Inhabited

def Op.render : Op → String
  | .plus => "+"
  | .times => "*"
  | .join => "\\/"
  | .meet => "/\\"

/--
A grade counts, bounds or classifies the uses of a variable. Zero and one are written at a kind that may
not be known yet.
-/
inductive Grade where
  | var (name : String)
  | nat (n : Nat)
  | float (x : Float)
  | level (l : Level)
  | zero (kind : GradeKind)
  | one (kind : GradeKind)
  | op (o : Op) (a b : Grade)
  deriving BEq, DecidableEq, Repr, Inhabited

namespace Grade

/--
A literal zero. A grade that merely evaluates to zero does not count.
-/
def isZero : Grade → Bool
  | .zero _ => true
  | .nat n => n = 0
  | .level l => l = .unused
  | .float x => x == 0
  | _ => false

def isAtomic : Grade → Bool
  | .op _ _ _ => false
  | _ => true

def render : Grade → String
  | .var name => name
  | .nat n => toString n
  | .float x => Decimal.render x
  | .level l => l.render
  | .zero .level => "Unused"
  | .one .level => "Public"
  | .zero _ => "0"
  | .one _ => "1"
  | .op o a b =>
    let left := if a.isAtomic then a.render else "(" ++ a.render ++ ")"
    let right := if b.isAtomic then b.render else "(" ++ b.render ++ ")"
    left ++ " " ++ o.render ++ " " ++ right

def occurrences : Grade → List String
  | .var name => [name]
  | .op _ a b => a.occurrences ++ b.occurrences
  | _ => []

def vars (g : Grade) : List String :=
  g.occurrences.eraseDups

end Grade

inductive Ty where
  /-- A type constructor. -/
  | const (n : String)
  | arrow (a b : Ty)
  | app (a b : Ty)
  | var (name : String)
  /-- `T [g]`, a value that may be used as `g` says. -/
  | box (grade : Grade) (ty : Ty)
  /-- `T <e₁, e₂>`, a computation with effects. -/
  | diamond (effects : List String) (ty : Ty)
  | pair (a b : Ty)
  /-- A number at the level of types. -/
  | index (n : Nat)
  | op (o : Op) (a b : Ty)
  deriving BEq, DecidableEq, Repr, Inhabited

/--
A finite map from variables to types. The first binding of a variable counts.
-/
abbrev Substitution := List (String × Ty)

namespace Ty

def list (size elem : Ty) : Ty :=
  .app (.app (.const "List") size) elem

/--
Read a type-level index as a grade: numbers, variables and arithmetic. Every other type is not an index.
-/
def toGrade? : Ty → Option Grade
  | .index n => some (.nat n)
  | .var name => some (.var name)
  | .op o a b => do return .op o (← a.toGrade?) (← b.toGrade?)
  | _ => none

end Ty

/--
Replace variables. A binding whose type is not an index leaves its variable alone.
-/
def Grade.substitute (s : Substitution) : Grade → Grade
  | .var name => ((s.lookup name).bind Ty.toGrade?).getD (.var name)
  | .op o a b => .op o (a.substitute s) (b.substitute s)
  | g => g

namespace Ty

def substitute (s : Substitution) : Ty → Ty
  | .const n => .const n
  | .arrow a b => .arrow (a.substitute s) (b.substitute s)
  | .app a b => .app (a.substitute s) (b.substitute s)
  | .var name => (s.lookup name).getD (.var name)
  | .box grade ty => .box (grade.substitute s) (ty.substitute s)
  | .diamond effects ty => .diamond effects (ty.substitute s)
  | .pair a b => .pair (a.substitute s) (b.substitute s)
  | .index n => .index n
  | .op o a b => .op o (a.substitute s) (b.substitute s)

def args : Ty → List Ty
  | .arrow a b => a :: b.args
  | _ => []

def result : Ty → Ty
  | .arrow _ b => b.result
  | ty => ty

def occurrences : Ty → List String
  | .const _ => []
  | .index _ => []
  | .var name => [name]
  | .arrow a b => a.occurrences ++ b.occurrences
  | .app a b => a.occurrences ++ b.occurrences
  | .pair a b => a.occurrences ++ b.occurrences
  | .op _ a b => a.occurrences ++ b.occurrences
  | .box grade ty => grade.occurrences ++ ty.occurrences
  | .diamond _ ty => ty.occurrences

def vars (ty : Ty) : List String :=
  ty.occurrences.eraseDups

def isAtomic : Ty → Bool
  | .const _ => true
  | .var _ => true
  | .index _ => true
  | .pair _ _ => true
  | _ => false

def isArrow : Ty → Bool
  | .arrow _ _ => true
  | _ => false

def isApp : Ty → Bool
  | .app _ _ => true
  | _ => false

def render : Ty → String
  | .const n => n
  | .var name => name
  | .index n => toString n
  | .arrow a b =>
    let left := if a.isArrow then "(" ++ a.render ++ ")" else a.render
    left ++ " -> " ++ b.render
  | .app a b =>
    let left := if a.isApp || a.isAtomic then a.render else "(" ++ a.render ++ ")"
    let right := if b.isAtomic then b.render else "(" ++ b.render ++ ")"
    left ++ " " ++ right
  | .pair a b => "(" ++ a.render ++ ", " ++ b.render ++ ")"
  | .box grade ty =>
    let inner := if ty.isAtomic then ty.render else "(" ++ ty.render ++ ")"
    inner ++ " [" ++ grade.render ++ "]"
  | .diamond effects ty =>
    let inner := if ty.isAtomic then ty.render else "(" ++ ty.render ++ ")"
    inner ++ " <" ++ ", ".intercalate effects ++ ">"
  | .op o a b =>
    let left := if a.isAtomic then a.render else "(" ++ a.render ++ ")"
    let right := if b.isAtomic then b.render else "(" ++ b.render ++ ")"
    left ++ " " ++ o.render ++ " " ++ right

end Ty

structure Scheme where
  vars : List (String × Kind)
  ty : Ty
  deriving BEq, DecidableEq, Repr, Inhabited

namespace Scheme

def mono (ty : Ty) : Scheme :=
  ⟨[], ty⟩

def render (s : Scheme) : String :=
  if s.vars.isEmpty then
    s.ty.render
  else
    let binders := s.vars.map fun (name, kind) => " (" ++ name ++ " : " ++ kind.render ++ ")"
    "forall" ++ String.join binders ++ ". " ++ s.ty.render

end Scheme
end GradedModal
