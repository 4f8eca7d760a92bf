import GradedModal.Typing.Kinding

/-!
This module compares types. A comparison tells whether two types agree, the left type with what was
solved, and the substitution that was learned. Grades are not compared as they are written: boxes and
type-level indices give rise to constraints, which are decided later.
-/

namespace GradedModal

open CheckM

structure Unified where
  agree : Bool
  ty : Ty
  subst : Substitution
  deriving Repr, Inhabited

namespace Unify

def vars (pos : Nat) (left right : String) : CheckM Unified := do
  let l ← typeVar pos left
  let r ← typeVar pos right
  if l.quantifier = .universal ∧ r.quantifier = .universal then
    return ⟨false, .var left, []⟩
  else
    let (kept, solved) := if r.quantifier = .universal then (right, left) else (left, right)
    match l.kind, r.kind with
    | .grade k, .grade k' =>
      let kind ← GradeKind.unify pos k k'
      constrain (.eq pos (.var kept) (.var solved) kind)
    | k, k' => discard <| Kind.unify pos k k'
    return ⟨true, .var left, [(solved, .var kept)]⟩

/--
A variable against a type that is not a variable. A variable for grades is constrained to equal the
index. Any other variable is solved unless it is universal, because a universal one stands for a type
that is chosen elsewhere.
-/
def var (env : Env) (pos : Nat) (name : String) (ty left : Ty) : CheckM Unified := do
  let v ← typeVar pos name
  let tyKind ← ty.inferKind env pos
  match v.kind, tyKind with
  | .grade k, .grade k' =>
    let kind ← GradeKind.unify pos k k'
    match ty.toGrade? with
    | some grade => constrain (.eq pos (.var name) grade kind)
    | none => fail pos (.rigidTypeVar name ty)
  | k, k' =>
    if v.quantifier = .universal then
      fail pos (.rigidTypeVar name ty)
    else
      discard <| Kind.unify pos k k'
  return ⟨true, left, [(name, ty)]⟩

def indices (env : Env) (pos : Nat) (left right : Ty) : CheckM Unified := do
  let leftKind ← left.inferKind env pos
  let rightKind ← right.inferKind env pos
  match leftKind, rightKind, left.toGrade?, right.toGrade? with
  | .grade k, .grade k', some g, some g' =>
    let kind ← GradeKind.unify pos k k'
    constrain (.eq pos g g' kind)
    return ⟨true, left, []⟩
  | _, _, _, _ => fail pos (.typeMismatch right left)

def merge (equal : Ty → Ty → CheckM Unified) (pos : Nat) :
    Substitution → Substitution → CheckM Substitution
  | first, [] => return first
  | first, (name, ty) :: second =>
    match first.lookup name with
    | none => merge equal pos (first ++ [(name, ty)]) second
    | some known => do
      let unified ← equal known ty
      if unified.agree then
        merge equal pos first second
      else
        fail pos (.typeMismatch known ty)

/--
Compare two types, with comparisons nested at most `depth` deep. Arguments of functions are compared the
other way round and at most approximately, contents of boxes exactly. What the first component of a type
teaches is used for the second.
-/
def relate (env : Env) (pos : Nat) : Nat → Relation → Ty → Ty → CheckM Unified
  | 0, _, left, right => fail pos (.endlessComparison left right)
  | depth + 1, relation, left, right =>
    match left, right with
    | .arrow arg result, .arrow arg' result' => do
      let args ← relate env pos depth .le arg' arg
      let result := result.substitute args.subst
      let result' := result'.substitute args.subst
      let results ← relate env pos depth relation result result'
      let subst ← merge (relate env pos depth .eq) pos args.subst results.subst
      return ⟨args.agree && results.agree, .arrow arg result, subst⟩
    | .const n, .const n' => return ⟨n = n', left, []⟩
    | .diamond effects ty, .diamond effects' ty' => do
      let inner ← relate env pos depth relation ty ty'
      if effects.isPrefixOf effects' then
        return ⟨inner.agree, .diamond effects inner.ty, inner.subst⟩
      else
        fail pos (.effectMismatch effects' effects)
    | .box grade ty, .box grade' ty' => do
      let k ← grade.inferKind pos
      let k' ← grade'.inferKind pos
      let kind ← GradeKind.unify pos k k'
      constrain ⟨pos, relation, grade, grade', kind⟩
      let inner ← relate env pos depth .eq ty ty'
      return ⟨inner.agree, .box grade inner.ty, inner.subst⟩
    | .app a b, .app a' b' => do
      let (first, second, subst) ← relatePair depth relation a b a' b'
      return ⟨first.agree && second.agree, .app first.ty second.ty, subst⟩
    | .pair a b, .pair a' b' => do
      let (first, second, subst) ← relatePair depth relation a b a' b'
      return ⟨first.agree && second.agree, .pair first.ty second.ty, subst⟩
    | .var name, .var name' =>
      if name = name' then do
        discard <| typeVar pos name
        return ⟨true, left, []⟩
      else
        vars pos name name'
    | .var name, _ => var env pos name right left
    | _, .var name => var env pos name left left
    | _, _ => indices env pos left right
where
  /-- Two components on each side. -/
  relatePair (depth : Nat) (relation : Relation) (a b a' b' : Ty) :
      CheckM (Unified × Unified × Substitution) := do
    let first ← relate env pos depth relation a a'
    let second ← relate env pos depth relation (b.substitute first.subst) (b'.substitute first.subst)
    let subst ← merge (relate env pos depth .eq) pos first.subst second.subst
    return (first, second, subst)

/--
How deep comparisons may be nested, which is deeper than any stack. Only types whose solution would contain itself
come this far.
-/
def maxDepth : Nat := 4611686018427387904

end Unify

namespace Ty

def relate (env : Env) (pos : Nat) (relation : Relation) (left right : Ty) : CheckM Unified :=
  Unify.relate env pos Unify.maxDepth relation left right

def equal (env : Env) (pos : Nat) (left right : Ty) : CheckM Unified :=
  left.relate env pos .eq right

/-- The grades of boxes on the right have to be at least those on the left. -/
def approx (env : Env) (pos : Nat) (left right : Ty) : CheckM Unified :=
  left.relate env pos .le right

end Ty

def Substitution.combine (env : Env) (pos : Nat) (first second : Substitution) : CheckM Substitution :=
  Unify.merge (Ty.equal env pos) pos first second

namespace Ty

def joinByEquality (env : Env) (pos : Nat) (left right : Ty) : CheckM Ty := do
  let unified ← left.equal env pos right
  if !unified.agree then
    fail pos (.noUpperBound left right)
  else
    match left with
    | .var _ => return right
    | _ => return left

def join (env : Env) (pos : Nat) (left right : Ty) : CheckM Ty :=
  match left, right with
  | .arrow arg result, .arrow arg' result' => do
    let arg ← join env pos arg' arg
    let result ← join env pos result result'
    return .arrow arg result
  | .const n, .const n' => if n = n' then return left else fail pos (.noUpperBound left right)
  | .diamond effects ty, .diamond effects' ty' => do
    let inner ← join env pos ty ty'
    if effects.isPrefixOf effects' then
      return .diamond effects' inner
    else if effects'.isPrefixOf effects then
      return .diamond effects inner
    else
      fail pos (.effectMismatch effects effects')
  | .box grade ty, .box grade' ty' => do
    let k ← grade.inferKind pos
    let k' ← grade'.inferKind pos
    let kind ← GradeKind.unify pos k k'
    let upper ← freshGrade "join" kind
    constrain (.le pos grade upper kind)
    constrain (.le pos grade' upper kind)
    let inner ← join env pos ty ty'
    return .box upper inner
  | .app a b, .app a' b' => do
    let first ← join env pos a a'
    let second ← join env pos b b'
    return .app first second
  | .pair a b, .pair a' b' => do
    let first ← join env pos a a'
    let second ← join env pos b b'
    return .pair first second
  | .var name, .var name' =>
    if name = name' then
      joinByEquality env pos left right
    else do
      let l ← typeVar pos name
      let r ← typeVar pos name'
      match l.kind, r.kind with
      | .grade k, .grade k' =>
        let kind ← GradeKind.unify pos k k'
        constrain (.le pos (.var name) (.var name') kind)
        return right
      | _, _ => joinByEquality env pos left right
  | .var _, _ => joinByEquality env pos left right
  | _, .var _ => joinByEquality env pos left right
  | .index _, _ => joinByEquality env pos left right
  | .op _ _ _, _ => joinByEquality env pos left right
  | _, _ => fail pos (.noUpperBound left right)
termination_by sizeOf left + sizeOf right

end Ty
end GradedModal
