import GradedModal.Typing.Kinding

/-!
This module contains typing contexts. Checking a term yields the context of what the term used, and the
operations here combine such contexts and constrain their grades.
-/

namespace GradedModal

open CheckM

inductive Assumption where
  /-- To be used exactly once. -/
  | linear (ty : Ty)
  /-- To be used as the grade says. -/
  | graded (ty : Ty) (grade : Grade)
  deriving BEq, DecidableEq, Repr, Inhabited

namespace Assumption

def ty : Assumption → Ty
  | .linear ty => ty
  | .graded ty _ => ty

def isLinear : Assumption → Bool
  | .linear _ => true
  | .graded _ _ => false

def render : Assumption → String
  | .linear ty => ty.render
  | .graded ty grade => ty.render ++ " [" ++ grade.render ++ "]"

def scale (grade : Grade) : Assumption → Assumption
  | .linear ty => .graded ty grade
  | .graded ty used => .graded ty (.op .times grade used)

end Assumption

structure Context where
  bindings : List (String × Assumption)
  deriving DecidableEq, Repr, Inhabited

namespace Context

def empty : Context :=
  ⟨[]⟩

def isEmpty (c : Context) : Bool :=
  c.bindings.isEmpty

def size (c : Context) : Nat :=
  c.bindings.length

def names (c : Context) : List String :=
  c.bindings.map (·.1)

def lookup? (c : Context) (x : String) : Option Assumption :=
  c.bindings.lookup x

def contains (c : Context) (x : String) : Bool :=
  (c.lookup? x).isSome

def filter (c : Context) (p : String → Assumption → Bool) : Context :=
  ⟨c.bindings.filter fun (x, a) => p x a⟩

def remove (c : Context) (x : String) : Context :=
  c.filter fun y _ => y != x

def bind (c : Context) (x : String) (a : Assumption) : Context :=
  ⟨(c.remove x).bindings ++ [(x, a)]⟩

def bindAll (c other : Context) : Context :=
  other.bindings.foldl (fun c (x, a) => c.bind x a) c

def ofList (bindings : List (String × Assumption)) : Context :=
  bindings.foldl (fun c (x, a) => c.bind x a) empty

def singleton (x : String) (a : Assumption) : Context :=
  empty.bind x a

def restrict (c : Context) (vars : List String) : Context :=
  c.filter fun x _ => vars.contains x

def gradedOnly (c : Context) : Context :=
  c.filter fun _ a => !a.isLinear

def subtract (c other : Context) : Context :=
  c.filter fun x _ => !other.contains x

def intersect (c other : Context) : Context :=
  c.filter fun x _ => other.contains x

/--
Multiply the grades of some variables and drop all others.
-/
def scale (c : Context) (vars : List String) (grade : Grade) : Context :=
  ⟨(c.restrict vars).bindings.map fun (x, a) => (x, a.scale grade)⟩

/--
Whether a linear variable was consumed, according to what became of it. A zero grade counts as consumed.
-/
def isConsumed : Option Assumption → Bool
  | some (.linear _) => true
  | some (.graded _ grade) => grade.isZero
  | none => false

def remainingLinear (c after : Context) : List String :=
  (c.filter fun x a => a.isLinear && !isConsumed (after.lookup? x)).names

def same (c other : Context) : Bool :=
  c.size = other.size && c.bindings.all fun (x, a) => other.lookup? x == some a

def render (c : Context) : String :=
  "[" ++ ", ".intercalate (c.bindings.map fun (x, a) => x ++ " : " ++ a.render) ++ "]"

def addUses (pos : Nat) (x : String) : Assumption → Assumption → CheckM Assumption
  | .linear _, .linear _ => fail pos (.linearity [x] .duplicated)
  | .graded ty used, .graded _ grade => return .graded ty (.op .plus used grade)
  | .graded ty grade, .linear _ => do return .graded ty (.op .plus grade (.one (← grade.inferKind pos)))
  | .linear _, .graded ty grade => do return .graded ty (.op .plus grade (.one (← grade.inferKind pos)))

def extend (pos : Nat) (c : Context) (x : String) (a : Assumption) : CheckM Context :=
  match c.lookup? x with
  | none => return ⟨c.bindings ++ [(x, a)]⟩
  | some known => do
    if known.ty != a.ty then
      fail pos (.typeMismatch known.ty a.ty)
    let sum ← addUses pos x known a
    return ⟨c.bindings.map fun (y, b) => if y = x then (y, sum) else (y, b)⟩

def combine (pos : Nat) (left right : Context) : CheckM Context :=
  left.bindings.foldlM (fun c (x, a) => c.extend pos x a) right

def commonKind (pos : Nat) (g h : Grade) : CheckM GradeKind := do
  let k ← g.inferKind pos
  let l ← h.inferKind pos
  GradeKind.unify pos k l

def leAssumption (pos : Nat) (x : String) : Assumption → Option Assumption → CheckM Unit
  | _, none => return ()
  | .linear _, some (.linear _) => return ()
  | .graded _ small, some (.graded _ big) => do
    let kind ← commonKind pos small big
    constrain (.le pos small big kind)
  | _, _ => fail pos (.linearity [x] .mixed)

def le (pos : Nat) (left right : Context) : CheckM Unit :=
  left.bindings.forM fun (x, a) => leAssumption pos x a (right.lookup? x)

/--
The use of a variable that is missing in one branch. A graded one is used zero times.
-/
def weaken (pos : Nat) : Option Assumption → CheckM (Option Assumption)
  | some (.graded ty grade) => do return some (.graded ty (.zero (← grade.inferKind pos)))
  | _ => return none

/--
The bound of what two branches use of a variable. A linear variable that one branch does not use is
dropped.
-/
def joinVar (pos : Nat) (left right : Context) (x : String) : CheckM (Option Assumption) := do
  let l ←
    match left.lookup? x with
    | some a => pure (some a)
    | none => weaken pos (right.lookup? x)
  let r ←
    match right.lookup? x with
    | some a => pure (some a)
    | none => weaken pos (left.lookup? x)
  match l, r with
  -- Linear in the one and absent from the other.
  | none, _ => return none
  | _, none => return none
  | some (.linear ty), some (.linear _) => return some (.linear ty)
  | some (.graded ty g), some (.graded _ h) =>
    let kind ← commonKind pos g h
    let upper ← freshGrade x kind
    constrain (.le pos g upper kind)
    constrain (.le pos h upper kind)
    return some (.graded ty upper)
  | _, _ => fail pos (.linearity [x] .mixed)

def join (pos : Nat) (left right : Context) : CheckM Context := do
  let names := left.names ++ right.names.filter (!left.contains ·)
  let bindings ← names.mapM fun x => do return (← joinVar pos left right x).map fun a => (x, a)
  return ⟨bindings.filterMap id⟩

/--
The assumption to check the contents of a box with. Grades are to be found by the solver, in the kind of
the box, and a linear variable is used once.
-/
def freshenVar (pos : Nat) (demand : GradeKind) (x : String) : Assumption → CheckM Assumption
  | .graded ty grade => do
    let kind ← GradeKind.unify pos (← grade.inferKind pos) demand
    return .graded ty (← freshGrade x kind)
  | .linear ty => return .graded ty (.one demand)

def freshen (pos : Nat) (vars : List String) (c : Context) (demand : Grade) : CheckM Context := do
  let kind ← demand.inferKind pos
  let bindings ← (c.restrict vars).bindings.mapM fun (x, a) => do return (x, ← freshenVar pos kind x a)
  return ⟨bindings⟩

end Context
end GradedModal
