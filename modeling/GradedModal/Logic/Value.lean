import GradedModal.Json.Basic
import GradedModal.Logic.Predicate

/-!
This module evaluates grades and decides constraints under an assignment of values to variables.
-/

namespace GradedModal

inductive Value where
  | nat (n : Nat)
  | float (x : Float)
  | level (l : Level)
  deriving BEq, DecidableEq, Repr, Inhabited

def Value.render : Value → String
  | .nat n => toString n
  | .float x => Decimal.render x
  | .level l => l.render

inductive EvalError where
  | unassigned (x : String)
  | notNumber (v : Value)
  | notNatural (v : Value)
  | notLevel (v : Value)
  | unresolvedKind (kind : GradeKind)
  deriving DecidableEq, Repr, Inhabited

def EvalError.message : EvalError → String
  | .unassigned x => "no value for " ++ x
  | .notNumber v => v.render ++ " is not a number"
  | .notNatural v => v.render ++ " is not a natural number"
  | .notLevel v => v.render ++ " is not a security level"
  | .unresolvedKind kind => "unresolved coeffect kind " ++ kind.render

namespace Value

def nat? : Value → Except EvalError Nat
  | .nat n => .ok n
  | v => .error (.notNatural v)

def float? : Value → Except EvalError Float
  | .nat n => .ok (Float.ofNat n)
  | .float x => .ok x
  | v => .error (.notNumber v)

def level? : Value → Except EvalError Level
  | .level l => .ok l
  | v => .error (.notLevel v)

def zero : GradeKind → Except EvalError Value
  | .nat => .ok (.nat 0)
  | .float => .ok (.float 0)
  | .level => .ok (.level .zero)
  | kind => .error (.unresolvedKind kind)

def one : GradeKind → Except EvalError Value
  | .nat => .ok (.nat 1)
  | .float => .ok (.float 1)
  | .level => .ok (.level .one)
  | kind => .error (.unresolvedKind kind)

end Value

/--
Arithmetic on words stops at the largest word.
-/
def Op.onNat (o : Op) (a b : Nat) : Nat :=
  match o with
  | .plus => min (a + b) maxWord
  | .times => min (a * b) maxWord
  | .join => max a b
  | .meet => min a b

/--
Arithmetic on doubles. The larger and the smaller of a number and an undefined one is the number.
-/
def Op.onFloat (o : Op) (a b : Float) : Float :=
  match o with
  | .plus => a + b
  | .times => a * b
  | .join => if a.isNaN then b else if b > a then b else a
  | .meet => if a.isNaN then b else if b < a then b else a

def Op.onLevel (o : Op) (a b : Level) : Level :=
  match o with
  | .plus => a.plus b
  | .times => a.times b
  | .join => max a b
  | .meet => min a b

def Op.apply (o : Op) (kind : GradeKind) (a b : Value) : Except EvalError Value :=
  match kind with
  | .nat => do return .nat (o.onNat (← a.nat?) (← b.nat?))
  | .float => do return .float (o.onFloat (← a.float?) (← b.float?))
  | .level => do return .level (o.onLevel (← a.level?) (← b.level?))
  | .var name => .error (.unresolvedKind (.var name))

abbrev Assignment := List (String × Value)

def Grade.evaluate (kind : GradeKind) (a : Assignment) : Grade → Except EvalError Value
  | .var x =>
    match a.lookup x with
    | some v => .ok v
    | none => .error (.unassigned x)
  | .nat n => .ok (if kind = .float then .float (Float.ofNat n) else .nat n)
  | .float x => .ok (.float x)
  | .level l => .ok (.level l)
  | .zero _ => Value.zero kind
  | .one _ => Value.one kind
  | .op o g h => do
    let v ← g.evaluate kind a
    let w ← h.evaluate kind a
    o.apply kind v w

def tolerance : Float := 1e-9

def Relation.onFloat (r : Relation) (a b : Float) : Bool :=
  match r with
  | .eq => (a - b).abs ≤ tolerance
  | .le => a ≤ b + tolerance

def Relation.onNat (r : Relation) (a b : Nat) : Bool :=
  match r with
  | .eq => a = b
  | .le => a ≤ b

def Relation.onLevel (r : Relation) (a b : Level) : Bool :=
  match r with
  | .eq => a = b
  | .le => a ≤ b

def Constraint.holds (c : Constraint) (a : Assignment) : Except EvalError Bool := do
  let left ← c.left.evaluate c.kind a
  let right ← c.right.evaluate c.kind a
  match c.kind with
  | .float => return c.relation.onFloat (← left.float?) (← right.float?)
  | .level => return c.relation.onLevel (← left.level?) (← right.level?)
  | _ => return c.relation.onNat (← left.nat?) (← right.nat?)

def Constraint.isTriviallyFalse (c : Constraint) : Bool :=
  c.vars.isEmpty &&
    match c.holds [] with
    | .ok b => !b
    | .error _ => false

end GradedModal
