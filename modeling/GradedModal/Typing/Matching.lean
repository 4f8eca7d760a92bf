import GradedModal.Typing.Context
import GradedModal.Typing.Unify

/-!
This module matches patterns against types.
-/

namespace GradedModal

open CheckM

structure Matched where
  context : Context
  existentials : List (String × Kind)
  subst : Substitution
  deriving Repr, Inhabited

namespace Matched

def ofContext (context : Context) : Matched :=
  ⟨context, [], []⟩

def merge (env : Env) (pos : Nat) (left right : Matched) : CheckM Matched := do
  let context ← Context.combine pos left.context right.context
  let subst ← Substitution.combine env pos left.subst right.subst
  return ⟨context, left.existentials ++ right.existentials, subst⟩

end Matched

namespace Scheme

def refresh (quantifier : Quantifier) (s : Scheme) : CheckM (List (String × Kind) × Ty) := do
  let fresh ← s.vars.mapM fun (name, kind) => do return (name, ← freshTypeVar name kind quantifier, kind)
  let subst := fresh.map fun (name, var, _) => (name, Ty.var var)
  return (fresh.map fun (_, var, kind) => (var, kind), s.ty.substitute subst)

def instantiate (s : Scheme) : CheckM Ty := do
  return (← s.refresh .instantiated).2

end Scheme

namespace Pattern

def mismatch {α : Type} (p : Pattern) (ty : Ty) : CheckM α :=
  fail p.pos (.patternMismatch p ty)

def matchLiteral (env : Env) (p : Pattern) (ty : Ty) (expected : String) : CheckM Matched := do
  let unified ← mapError (fun _ => .ofCause p.pos (.patternMismatch p ty)) <|
    (Ty.const expected).equal env p.pos ty
  if unified.agree then
    return ⟨.empty, [], unified.subst⟩
  else
    p.mismatch ty

mutual

/--
Match a pattern against a type. The constraints on indices that this gives rise to belong to the
antecedent of an implication, whose consequent is what follows the pattern.
-/
def matchTy (env : Env) : Pattern → Ty → CheckM Matched
  | .var _ name, ty => return .ofContext (.singleton name (.linear ty))
  | .wildcard _, ty => do return .ofContext (.singleton (← freshName "_") (.linear ty))
  | .int pos n, ty => matchLiteral env (.int pos n) ty "Int"
  | .float pos x, ty => matchLiteral env (.float pos x) ty "Float"
  | .box pos inner, ty =>
    match ty with
    | .box grade content => do
      let matched ← inner.matchTy env content
      return { matched with context := matched.context.scale matched.context.names grade }
    | _ => (Pattern.box pos inner).mismatch ty
  | .pair pos a b, ty =>
    match ty with
    | .pair aTy bTy => do
      let left ← a.matchTy env aTy
      let right ← b.matchTy env (bTy.substitute left.subst)
      left.merge env pos right
    | _ => (Pattern.pair pos a b).mismatch ty
  | .constructor pos name args, ty => do
    match env.builtins.constructors.lookup name with
    | none => fail pos (.notInScope name)
    | some scheme =>
      let (existentials, constructorTy) ← scheme.refresh .patternBound
      if constructorTy.args.length ≠ args.length then
        (Pattern.constructor pos name args).mismatch ty
      let unified ← constructorTy.result.equal env pos ty
      if !unified.agree then
        (Pattern.constructor pos name args).mismatch ty
      matchArgs env pos args constructorTy.args ⟨.empty, existentials, unified.subst⟩

def matchArgs (env : Env) (pos : Nat) : List Pattern → List Ty → Matched → CheckM Matched
  | p :: ps, ty :: tys, matched => do
    let arg ← p.matchTy env (ty.substitute matched.subst)
    let matched ← matched.merge env pos arg
    matchArgs env pos ps tys matched
  | _, _, matched => return matched

end

end Pattern
end GradedModal
