import GradedModal.Typing.Builtins
import GradedModal.Typing.State

/-!
This module infers the kinds of types and grades.
-/

namespace GradedModal

open CheckM

/--
The most general kind of grades that both arguments can be. An undetermined kind becomes the other one.
-/
def GradeKind.unify (pos : Nat) (expected actual : GradeKind) : CheckM GradeKind := do
  let expected ← resolve expected
  let actual ← resolve actual
  if expected = actual then
    return expected
  else
    match expected, actual with
    | .var name, _ =>
      bindGradeKind name actual
      return actual
    | _, .var name =>
      bindGradeKind name expected
      return expected
    | _, _ => fail pos (.gradeKindMismatch expected actual)

def Grade.inferKind (pos : Nat) : Grade → CheckM GradeKind
  | .var name => do
    let v ← typeVar pos name
    match v.kind with
    | .grade kind => resolve kind
    | kind => fail pos (.notAGrade name kind)
  | .nat _ => return .nat
  | .float _ => return .float
  | .level _ => return .level
  | .zero kind => resolve kind
  | .one kind => resolve kind
  | .op _ a b => do
    let a ← a.inferKind pos
    let b ← b.inferKind pos
    GradeKind.unify pos a b

def Kind.unify (pos : Nat) : Kind → Kind → CheckM Kind
  | .grade a, .grade b => do return .grade (← GradeKind.unify pos a b)
  | .arrow a b, .arrow a' b' => do
    let input ← Kind.unify pos a a'
    let output ← Kind.unify pos b b'
    return .arrow input output
  | expected, actual => if expected = actual then return expected else fail pos (.kindMismatch expected actual)

namespace Ty

def inferKind (env : Env) (pos : Nat) : Ty → CheckM Kind
  | .const n =>
    match env.builtins.types.lookup n with
    | some kind => return kind
    | none => fail pos (.notInScope n)
  | .var name => do return (← typeVar pos name).kind
  | .index _ => return .grade .nat
  | .op _ a b => do
    let left ← a.inferKind env pos
    let right ← b.inferKind env pos
    match left, right with
    | .grade k, .grade l => return .grade (← GradeKind.unify pos k l)
    | .grade _, _ => fail pos (.kindMismatch left right)
    | _, _ => fail pos (.kindMismatch (.grade .nat) left)
  | .arrow a b => do
    discard <| Kind.unify pos .type (← a.inferKind env pos)
    discard <| Kind.unify pos .type (← b.inferKind env pos)
    return .type
  | .pair a b => do
    discard <| Kind.unify pos .type (← a.inferKind env pos)
    discard <| Kind.unify pos .type (← b.inferKind env pos)
    return .type
  | .box grade ty => do
    discard <| grade.inferKind pos
    discard <| Kind.unify pos .type (← ty.inferKind env pos)
    return .type
  | .diamond _ ty => do
    discard <| Kind.unify pos .type (← ty.inferKind env pos)
    return .type
  | .app a b => do
    let function ← a.inferKind env pos
    let arg ← b.inferKind env pos
    match function with
    | .arrow input output =>
      discard <| Kind.unify pos input arg
      return output
    | _ => fail pos (.kindMismatch (.arrow arg .type) function)

def checkKind (env : Env) (pos : Nat) (ty : Ty) (expected : Kind) : CheckM Unit := do
  discard <| Kind.unify pos expected (← ty.inferKind env pos)

end Ty

namespace CheckM

def bindUniversals : List (String × Kind) → CheckM Unit
  | [] => return ()
  | (name, kind) :: vars => do
    bindTypeVar name kind .universal
    bindUniversals vars

end CheckM

def Scheme.checkKind (env : Env) (pos : Nat) (s : Scheme) : CheckM Unit :=
  thenReset do
    bindUniversals s.vars
    s.ty.checkKind env pos .type

end GradedModal
