import GradedModal.Logic.Search
import GradedModal.Typing.State

/-!
This module hands the predicate that checking a definition has collected to a prover.
-/

namespace GradedModal

abbrev Prover (σ : Type) := Predicate → List GradeVar → StateM σ Verdict

namespace Predicate

mutual

def mapKinds (f : GradeKind → GradeKind) : Predicate → Predicate
  | .atom c => .atom { c with kind := f c.kind }
  | .conj items => .conj (mapKindsAll f items)
  | .impl bound antecedent consequent => .impl bound (antecedent.mapKinds f) (consequent.mapKinds f)

def mapKindsAll (f : GradeKind → GradeKind) : List Predicate → List Predicate
  | [] => []
  | p :: ps => p.mapKinds f :: mapKindsAll f ps

end

end Predicate

structure Obligation where
  definition : String
  pos : Nat
  predicate : Predicate
  vars : List GradeVar
  deriving Repr, Inhabited

def State.obligation (s : State) (definition : String) (pos : Nat) : Obligation :=
  ⟨definition, pos, s.collected.mapKinds s.settle, s.gradeVars⟩

inductive Event where
  | discharging (definition : String) (predicate : Predicate)
  | gradeVar (definition : String) (var : GradeVar)
  | valid (definition : String)
  | invalid (definition reason : String)
  deriving Repr, Inhabited

namespace Obligation

def settle (o : Obligation) : Verdict → Except Error Unit
  | .valid => .ok ()
  | .invalid counterexample =>
    -- Those that are false whatever the variables stand for.
    let falsified := o.predicate.constraints.filter (·.isTriviallyFalse)
    .error (.ofCause o.pos (.constraintViolation o.definition counterexample falsified))
  | .undecided doubt => .error (.ofCause o.pos (.prover doubt.message))

/--
Decide an obligation. The prover is not asked if there is nothing to prove.
-/
def discharge {σ : Type} (o : Obligation) (prover : Prover σ) : StateM σ (Except Error Unit) :=
  if o.predicate.isTrivial then
    return .ok ()
  else do
    return o.settle (← prover o.predicate o.vars)

def events (o : Obligation) (detailed : Bool) (result : Except Error Unit) : List Event :=
  let details :=
    if detailed then .discharging o.definition o.predicate :: o.vars.map (.gradeVar o.definition) else []
  let outcome :=
    match result with
    | .ok () => .valid o.definition
    | .error e => .invalid o.definition e.message
  details ++ [outcome]

end Obligation
end GradedModal
