import GradedModal.Typing.Check
import GradedModal.Typing.Obligation

/-!
This module checks definitions and lists of them.
-/

namespace GradedModal

open CheckM

namespace Definition

def bindPatterns (env : Env) : List Pattern → List Ty → Matched → CheckM Matched
  | p :: ps, ty :: tys, matched => do
    let arg ← p.matchTy env (ty.substitute matched.subst)
    let matched ← matched.merge env p.pos arg
    bindPatterns env ps tys matched
  | _, _, matched => return matched

def bindParameters (env : Env) (d : Definition) : CheckM (Matched × Ty) := do
  let args := d.scheme.ty.args
  if args.length < d.patterns.length then
    fail d.binder.pos (.notAFunction d.scheme.ty)
  let matched ← bindPatterns env d.patterns args ⟨.empty, [], []⟩
  let remaining := (args.drop d.patterns.length).foldr .arrow d.scheme.ty.result
  return (matched, remaining.substitute matched.subst)

def check (env : Env) (d : Definition) : CheckM Unit := do
  bindUniversals d.scheme.vars
  openScope
  let (matched, expected) ← d.bindParameters env
  enterConsequent
  let (used, _) ← d.body.check env matched.context .positive true expected
  let remaining := matched.context.remainingLinear used
  if !remaining.isEmpty then
    fail d.binder.pos (.linearity remaining .unused)
  Context.le d.body.pos (used.intersect matched.context) matched.context
  closeScope matched.existentials

end Definition

structure Run where
  result : Except Error Unit
  events : List Event

namespace Program

def checkSignatures (env : Env) (defs : List Definition) : CheckM Unit :=
  defs.forM fun d => d.scheme.checkKind env d.binder.pos

def checkBodies {σ : Type} (env : Env) (prover : Prover σ) (detailed : Bool) :
    List Definition → State → StateM σ Run
  | [], _ => return ⟨.ok (), []⟩
  | d :: defs, s =>
    match d.check env s.reset with
    | .error e _ => return ⟨.error e, []⟩
    | .ok () s => do
      let obligation := s.obligation d.binder.name d.binder.pos
      let result ← obligation.discharge prover
      let events := obligation.events detailed result
      match result with
      | .error e => return ⟨.error e, events⟩
      | .ok () =>
        let rest ← checkBodies env prover detailed defs s.reset
        return ⟨rest.result, events ++ rest.events⟩

/--
The signatures of definitions. The last definition of a name counts.
-/
def signatures (defs : List Definition) : List (String × Scheme) :=
  defs.reverse.map fun d => (d.binder.name, d.scheme)

/--
Check a list of definitions. All signatures are checked before any body, so that definitions may refer to
each other in any order.
-/
def check {σ : Type} (builtins : Builtins) (prover : Prover σ) (detailed : Bool) (defs : List Definition) :
    StateM σ Run :=
  let env : Env := ⟨builtins, signatures defs⟩
  match checkSignatures env defs .start with
  | .error e _ => return ⟨.error e, []⟩
  | .ok () s => checkBodies env prover detailed defs s

end Program
end GradedModal
