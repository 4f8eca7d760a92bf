import GradedModal.Logic.Formula
import GradedModal.Typing.Error

/-!
This module contains the state of checking: the predicate that grows, the implications that are open, the
variables in scope with their kinds, and the supply of names.
-/

namespace GradedModal

structure Scope where
  antecedent : List Predicate
  consequent : List Predicate
  inConsequent : Bool
  deriving Repr, Inhabited

namespace Scope

def start : Scope :=
  ⟨[], [], false⟩

def add (s : Scope) (p : Predicate) : Scope :=
  if s.inConsequent then
    { s with consequent := s.consequent ++ [p] }
  else
    { s with antecedent := s.antecedent ++ [p] }

def flatten (s : Scope) : Predicate :=
  .conj (s.antecedent ++ s.consequent)

end Scope

structure TypeVar where
  name : String
  kind : Kind
  quantifier : Quantifier
  deriving DecidableEq, Repr, Inhabited

structure State where
  predicate : List Predicate
  /-- Open implications, innermost first. -/
  scopes : List Scope
  /-- Variables in scope, latest first. -/
  typeVars : List TypeVar
  /-- What is known about undetermined kinds, latest first. -/
  kinds : List (String × GradeKind)
  /-- The number that makes the next name. -/
  nextFresh : Nat
  deriving Repr, Inhabited

namespace State

def start : State :=
  ⟨[], [], [], [], 0⟩

/--
Forget everything but the supply of names, so that names stay unique.
-/
def reset (s : State) : State :=
  { start with nextFresh := s.nextFresh }

def lookup? (s : State) (name : String) : Option TypeVar :=
  s.typeVars.find? (·.name = name)

def add (s : State) (p : Predicate) : State :=
  match s.scopes with
  | [] => { s with predicate := s.predicate ++ [p] }
  | scope :: scopes => { s with scopes := scope.add p :: scopes }

def collected (s : State) : Predicate :=
  .conj (s.predicate ++ s.scopes.reverse.map Scope.flatten)

def resolve (s : State) (kind : GradeKind) : GradeKind :=
  go s.kinds.length kind
where
  go : Nat → GradeKind → GradeKind
    | n + 1, .var name =>
      match s.kinds.lookup name with
      | some next => go n next
      | none => .var name
    | _, kind => kind

/--
What a kind is when checking is over. A kind that was never determined is that of naturals.
-/
def settle (s : State) (kind : GradeKind) : GradeKind :=
  match s.resolve kind with
  | .var _ => .nat
  | kind => kind

def gradeVars (s : State) : List GradeVar :=
  s.typeVars.reverse.filterMap fun v => v.kind.gradeKind?.map fun kind => ⟨v.name, s.settle kind, v.quantifier⟩

end State

/--
Checking fails with an error and keeps what was done to the state before.
-/
abbrev CheckM := EStateM Error State

namespace CheckM

def fail {α : Type} (pos : Nat) (cause : Cause) : CheckM α :=
  throw (.ofCause pos cause)

def freshName (hint : String) : CheckM String := do
  let s ← get
  set { s with nextFresh := s.nextFresh + 1 }
  return hint ++ "." ++ toString s.nextFresh

def bindTypeVar (name : String) (kind : Kind) (quantifier : Quantifier) : CheckM Unit :=
  modify fun s => { s with typeVars := ⟨name, kind, quantifier⟩ :: s.typeVars }

def freshTypeVar (hint : String) (kind : Kind) (quantifier : Quantifier) : CheckM String := do
  let name ← freshName hint
  bindTypeVar name kind quantifier
  return name

def freshGrade (hint : String) (kind : GradeKind) : CheckM Grade := do
  return .var (← freshTypeVar hint (.grade kind) .instantiated)

def freshGradeKind (hint : String) : CheckM GradeKind := do
  return .var (← freshName hint)

def typeVar (pos : Nat) (name : String) : CheckM TypeVar := do
  match (← get).lookup? name with
  | some v => return v
  | none => fail pos (.unboundTypeVar name)

def resolve (kind : GradeKind) : CheckM GradeKind := do
  return (← get).resolve kind

def bindGradeKind (name : String) (kind : GradeKind) : CheckM Unit :=
  modify fun s => { s with kinds := (name, kind) :: s.kinds }

def constrain (c : Constraint) : CheckM Unit :=
  modify (·.add (.atom c))

def openScope : CheckM Unit :=
  modify fun s => { s with scopes := .start :: s.scopes }

def enterConsequent : CheckM Unit :=
  modify fun s =>
    match s.scopes with
    | [] => s
    | scope :: scopes => { s with scopes := { scope with inConsequent := true } :: scopes }

def closeScope (bound : List (String × Kind)) : CheckM Unit :=
  modify fun s =>
    match s.scopes with
    | [] => s
    | scope :: scopes =>
      { s with scopes }.add (.impl bound (.conj scope.antecedent) (.conj scope.consequent))

def reset : CheckM Unit :=
  modify State.reset

-- What a failure did to the state is undone.
def attempt {α : Type} (x : CheckM α) : CheckM (Except Error α) := fun s =>
  match x s with
  | .ok a s => .ok (.ok a) s
  | .error e _ => .ok (.error e) s

-- What was done to the state is undone in any case.
def dryRun {α : Type} (x : CheckM α) : CheckM α := fun s =>
  match x s with
  | .ok a _ => .ok a s
  | .error e _ => .error e s

def mapError {α : Type} (f : Error → Error) (x : CheckM α) : CheckM α := fun s =>
  match x s with
  | .ok a s => .ok a s
  | .error e s => .error (f e) s

def thenReset {α : Type} (x : CheckM α) : CheckM α := fun s =>
  match x s with
  | .ok a s => .ok a s.reset
  | .error e s => .error e s.reset

end CheckM
end GradedModal
