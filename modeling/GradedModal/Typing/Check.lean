import GradedModal.Typing.Matching

/-!
This module checks expressions against types and synthesizes types of expressions. Both return the
context of what the expression used, and constrain grades on the way.
-/

namespace GradedModal

open CheckM

/--
Which side of a comparison may be above the other.
-/
inductive Polarity where
  | positive
  | negative
  deriving DecidableEq, Repr, Inhabited

def Polarity.flip : Polarity → Polarity
  | .positive => .negative
  | .negative => .positive

/--
What is asked about an expression: its type, or whether it has an expected one. At the top level the
type of an expression has to be equal to the expected one.
-/
inductive Goal where
  | synthesize
  | check (topLevel : Bool) (expected : Ty)
  deriving Repr, Inhabited

structure Typed where
  ty : Ty
  used : Context
  subst : Substitution
  deriving Repr, Inhabited

namespace Expr

def checkConsumed (b : Binder) (ty : Ty) (used : Context) : CheckM Unit := do
  let remaining := (Context.singleton b.name (.linear ty)).remainingLinear used
  if !remaining.isEmpty then
    fail b.pos (.linearity remaining .unused)

def conclude (env : Env) (pos : Nat) (polarity : Polarity) (goal : Goal) (actual : Ty) (used : Context) :
    CheckM Typed :=
  match goal with
  | .synthesize => return ⟨actual, used, []⟩
  | .check topLevel expected => do
    let (left, right) := if polarity = .positive then (actual, expected) else (expected, actual)
    let hint := Hint.comparing expected actual
    let relation := if topLevel then .eq else .le
    let unified ← mapError (·.withHint hint) (left.relate env pos relation right)
    if unified.agree then
      return ⟨expected, used, unified.subst⟩
    else
      throw ((Error.ofCause pos (.typeMismatch expected actual)).withHint hint)

/--
The factor of `scale r e` with a literal `r`, unless `scale` is a local variable.
-/
def scaleFactor? (c : Context) : Expr → Option Float
  | .app _ (.var _ name) (.float _ factor) => if name = "scale" ∧ !c.contains name then some factor else none
  | _ => none

/--
The type of a constructor. The length of a longer list, and a larger unary number, is one that exceeds
the shorter by one.
-/
def constructorTy (env : Env) (pos : Nat) (name : String) : CheckM Ty := do
  if name = "Cons" ∨ name = "S" then
    let size ← freshTypeVar "n" (.grade .nat) .instantiated
    let result ← freshTypeVar "m" (.grade .nat) .instantiated
    constrain (.eq pos (.var result) (.op .plus (.var size) (.nat 1)) .nat)
    if name = "Cons" then
      let elem ← freshTypeVar "a" .type .instantiated
      return .arrow (.var elem) (.arrow (.list (.var size) (.var elem)) (.list (.var result) (.var elem)))
    else
      return .arrow (Builtins.number (.var size)) (Builtins.number (.var result))
  else
    match env.builtins.constructors.lookup name with
    | some scheme => scheme.instantiate
    | none => fail pos (.notInScope name)

def varTy (env : Env) (c : Context) (pos : Nat) (name : String) : CheckM (Ty × Context) :=
  match c.lookup? name with
  | some (.linear ty) => return (ty, .singleton name (.linear ty))
  | some (.graded ty grade) => do
    let kind ← grade.inferKind pos
    return (ty, .singleton name (.graded ty (.one kind)))
  | none =>
    match env.lookup? name with
    | some scheme => do return (← scheme.instantiate, .empty)
    | none => fail pos (.notInScope name)

/--
Try the signatures of an operator in order and take the first that fits. Failing that, the first error
that is not about the shape of a type is the error of all, and otherwise no signature fits.
-/
def firstFit (fits : Ty → Ty → CheckM Context) (noFit : CheckM (Ty × Context)) :
    List Ty → Option Error → CheckM (Ty × Context)
  | [], none => noFit
  | [], some rejection => throw rejection
  | ty :: tys, rejection =>
    match ty.args with
    | [left, right] => do
      match ← attempt (fits left right) with
      | .ok used => return (ty.result, used)
      | .error e => firstFit fits noFit tys (rejection.or (if e.cause.isShape then none else some e))
    | _ => firstFit fits noFit tys rejection

def sharedVars (branches : List (Pattern × Expr)) : List String :=
  (freeOccurrencesAll branches).eraseDups

/--
Fresh upper bounds for the graded variables that the branches of a case use.
-/
def baseline (pos : Nat) (c : Context) (branches : List (Pattern × Expr)) : CheckM Context := do
  let bindings ← (c.gradedOnly.restrict (sharedVars branches)).bindings.filterMapM fun (x, a) =>
    match a with
    | .graded ty grade => do
      let kind ← grade.inferKind pos
      return some (x, Assumption.graded ty (← freshGrade x kind))
    | .linear _ => return none
  return .ofList bindings

structure CaseInfo where
  pos : Nat
  context : Context
  polarity : Polarity
  scrutinee : Ty
  baseline : Context
  /-- The type that is expected of each branch, if one is. -/
  expected : Option Ty

structure Joined where
  ty : Option Ty
  used : Option Context

def closeBranch (info : CaseInfo) (pattern : Pattern) (bodyPos : Nat) (matched : Matched) (used : Context) :
    CheckM Context := do
  let remaining := matched.context.remainingLinear used
  if !remaining.isEmpty then
    fail pattern.pos (.linearity remaining .unused)
  Context.le pattern.pos (used.intersect matched.context) matched.context
  Context.le bodyPos (used.intersect info.baseline) info.baseline
  closeScope matched.existentials
  -- The baseline is counted once, for all branches together.
  return (used.subtract info.baseline).subtract matched.context

mutual

def infer (env : Env) : Expr → Context → Polarity → Goal → CheckM Typed
  | .int pos _, _, polarity, goal =>
    match goal with
    | .check topLevel (.const n) =>
      -- A whole number may stand for a real one.
      if n = "Int" ∨ n = "Float" then
        return ⟨.const n, .empty, []⟩
      else
        conclude env pos polarity (.check topLevel (.const n)) (.const "Int") .empty
    | goal => conclude env pos polarity goal (.const "Int") .empty
  | .float pos _, _, polarity, goal =>
    match goal with
    | .check topLevel (.const n) =>
      if n = "Float" then
        return ⟨.const n, .empty, []⟩
      else
        conclude env pos polarity (.check topLevel (.const n)) (.const "Float") .empty
    | goal => conclude env pos polarity goal (.const "Float") .empty
  | .constructor pos name, _, polarity, goal => do
    let ty ← constructorTy env pos name
    conclude env pos polarity goal ty .empty
  | .var pos name, c, polarity, goal => do
    let (ty, used) ← varTy env c pos name
    conclude env pos polarity goal ty used
  | .lam pos binder annotation body, c, polarity, goal =>
    match goal with
    | .check topLevel (.arrow arg result) => do
      if let some ty := annotation then
        let unified ← ty.equal env binder.pos arg
        if !unified.agree then
          fail binder.pos (.typeMismatch arg ty)
      let inner ← infer env body (c.bind binder.name (.linear arg)) polarity (.check topLevel result)
      checkConsumed binder arg inner.used
      return ⟨.arrow arg result, inner.used.remove binder.name, inner.subst⟩
    | goal =>
      match annotation with
      | none => fail pos .cannotSynthesize
      | some arg => do
        let inner ← infer env body (c.bind binder.name (.linear arg)) polarity .synthesize
        checkConsumed binder arg inner.used
        conclude env pos polarity goal (.arrow arg inner.ty) (inner.used.remove binder.name)
  | .app pos f a, c, polarity, goal =>
    match goal with
    | .check _ expected => do
      match (if expected == .const "Float" then scaleFactor? c f else none) with
      | some factor =>
        let inner ← infer env a c polarity (.check false (.box (.float factor) (.const "Float")))
        return ⟨expected, inner.used, inner.subst⟩
      | none =>
        let arg ← infer env a c polarity .synthesize
        -- The expected type is now that of a result, so that all of the function is compared the other way round.
        let function ← infer env f c polarity.flip (.check false (.arrow arg.ty expected))
        let used ← Context.combine f.pos function.used arg.used
        return ⟨expected, used, function.subst⟩
    | .synthesize => do
      let function ← infer env f c polarity .synthesize
      match function.ty with
      | .arrow argTy resultTy =>
        let arg ← infer env a c polarity (.check false argTy)
        let used ← Context.combine pos function.used arg.used
        return ⟨resultTy.substitute arg.subst, used, []⟩
      | ty => fail f.pos (.notAFunction ty)
  | .promote pos e, c, polarity, goal =>
    match goal with
    | .check _ (.box demand content) => do
      let vars := e.freeVars.filter c.contains
      let fresh ← Context.freshen pos vars c demand
      let inner ← infer env e fresh polarity (.check false content)
      match polarity with
      | .positive => Context.le pos inner.used fresh
      | .negative => Context.le pos fresh inner.used
      -- The fresh grades count and not those of the contents. At negative polarity they are only bounded above.
      return ⟨.box demand content, fresh.scale vars demand, inner.subst⟩
    | goal => do
      let kind ← freshGradeKind "k"
      let grade ← freshGrade "r" kind
      let inner ← infer env e c polarity .synthesize
      conclude env pos polarity goal (.box grade inner.ty) (inner.used.scale e.freeVars grade)
  | .lift pos e, c, polarity, goal =>
    match goal with
    | .check _ (.diamond effects content) => do
      let inner ← infer env e c polarity (.check false content)
      return ⟨.diamond effects content, inner.used, inner.subst⟩
    | goal => do
      let inner ← infer env e c polarity .synthesize
      conclude env pos polarity goal (.diamond [] inner.ty) inner.used
  | .pair pos a b, c, polarity, goal =>
    match goal with
    | .check _ (.pair aTy bTy) => do
      let left ← infer env a c polarity (.check false aTy)
      let right ← infer env b c polarity (.check false (bTy.substitute left.subst))
      let used ← Context.combine pos left.used right.used
      let subst ← Substitution.combine env pos left.subst right.subst
      return ⟨.pair aTy bTy, used, subst⟩
    | goal => do
      let left ← infer env a c polarity .synthesize
      let right ← infer env b c polarity .synthesize
      let used ← Context.combine pos left.used right.used
      conclude env pos polarity goal (.pair left.ty right.ty) used
  | .case pos scrutinee branches, c, polarity, goal => do
    let value ← infer env scrutinee c polarity .synthesize
    let base ← baseline pos c branches
    let expected :=
      match goal with
      | .check _ expected => some expected
      | .synthesize => none
    let joined ← inferBranches env ⟨pos, c, polarity, value.ty, base, expected⟩ branches ⟨none, none⟩
    let used ← Context.combine pos (joined.used.getD .empty) value.used
    let used ← Context.combine pos used base
    match expected.or joined.ty with
    | some ty => return ⟨ty, used, []⟩
    | none => fail pos .cannotSynthesize
  | .letDiamond pos binder annotation value rest, c, polarity, goal => do
    let first ← infer env value c polarity .synthesize
    match first.ty with
    | .diamond effects content =>
      if let some ty := annotation then
        let unified ← ty.equal env binder.pos content
        if !unified.agree then
          fail binder.pos (.typeMismatch ty content)
      let second ← infer env rest (c.bind binder.name (.linear content)) polarity .synthesize
      match second.ty with
      | .diamond effects' result =>
        checkConsumed binder content second.used
        let used ← Context.combine pos first.used (second.used.remove binder.name)
        conclude env pos polarity goal (.diamond (effects ++ effects') result) used
      | ty => fail rest.pos (.notEffectful ty)
    | ty => fail value.pos (.notEffectful ty)
  | .letBox pos binder ty value rest, c, polarity, goal => do
    let kind ← freshGradeKind "k"
    let grade ← freshGrade binder.name kind
    let second ← infer env rest (c.bind binder.name (.graded ty grade)) polarity .synthesize
    let demand ←
      match second.used.lookup? binder.name with
      | some (.graded _ usage) => pure usage
      | some (.linear _) => pure (.one kind)
      | none => do
        -- No use says what the grade is.
        constrain (.eq binder.pos grade (.zero kind) kind)
        pure grade
    let first ← infer env value c polarity (.check false (.box demand ty))
    let used ← Context.combine pos first.used (second.used.remove binder.name)
    conclude env pos polarity goal second.ty used
  | .binop pos op a b, c, polarity, goal => do
    let fits (left right : Ty) : CheckM Context := do
      let l ← infer env a c polarity (.check false left)
      let r ← infer env b c polarity (.check false right)
      Context.combine pos l.used r.used
    let noFit : CheckM (Ty × Context) := do
      -- The types are wanted for the message only.
      let l ← dryRun do
        let l ← infer env a c polarity .synthesize
        let r ← infer env b c polarity .synthesize
        return (l.ty, r.ty)
      fail pos (.noMatchingOperator op l.1 l.2)
    let (ty, used) ← firstFit fits noFit (env.builtins.signatures op) none
    conclude env pos polarity goal ty used

/--
Answer the goal of a case about each of its branches. The constraints that a pattern gives rise to imply
those of its branch.
-/
def inferBranches (env : Env) (info : CaseInfo) : List (Pattern × Expr) → Joined → CheckM Joined
  | [], joined => return joined
  | (pattern, body) :: branches, joined => do
    openScope
    let matched ← pattern.matchTy env info.scrutinee
    enterConsequent
    let inner := info.context.bindAll matched.context
    let goal :=
      match info.expected with
      | some ty => Goal.check false (ty.substitute matched.subst)
      | none => .synthesize
    let typed ← infer env body inner info.polarity goal
    let ty ←
      match info.expected, joined.ty with
      | some _, _ => pure none
      | none, none => pure (some typed.ty)
      | none, some ty => do pure (some (← ty.join env body.pos typed.ty))
    let net ← closeBranch info pattern body.pos matched typed.used
    let used ←
      match joined.used with
      | none => pure net
      | some used => used.join info.pos net
    inferBranches env info branches ⟨ty, some used⟩

end

def check (env : Env) (c : Context) (polarity : Polarity) (topLevel : Bool) (expected : Ty) (e : Expr) :
    CheckM (Context × Substitution) := do
  let typed ← infer env e c polarity (.check topLevel expected)
  return (typed.used, typed.subst)

def synthesize (env : Env) (c : Context) (polarity : Polarity) (e : Expr) : CheckM (Ty × Context) := do
  let typed ← infer env e c polarity .synthesize
  return (typed.ty, typed.used)

end Expr
end GradedModal
