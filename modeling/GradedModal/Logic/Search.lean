import GradedModal.Logic.Formula
import GradedModal.Logic.Value

/-!
This module decides queries by trying small values. Universal naturals and reals range over a bounded
domain, and running through it without a counterexample proves nothing about larger values: that outcome
is inconclusive. Existential variables that an equation determines are solved for and not searched.
-/

namespace GradedModal

inductive Doubt where
  | gaveUp (limit : Nat)
  | noCounterexample (bound : Nat)
  | eval (e : EvalError)
  | answered (text : String)
  | noOutput
  | couldNotRun (command reason : String)
  deriving DecidableEq, Repr, Inhabited

def Doubt.message : Doubt → String
  | .gaveUp limit => "gave up after " ++ toString limit ++ " evaluations"
  | .noCounterexample bound =>
    "bounded search inconclusive: no counterexample with naturals up to " ++ toString bound
  | .eval e => e.message
  | .answered text => "solver answered \"" ++ text ++ "\""
  | .noOutput => "solver produced no output"
  | .couldNotRun command reason => "could not run " ++ command ++ ": " ++ reason

inductive Verdict where
  /-- No assignment falsifies the query. -/
  | valid
  /-- Values of universal variables that falsify the query, in the order of the variables. -/
  | invalid (counterexample : List (String × Value))
  | undecided (doubt : Doubt)
  deriving DecidableEq, Repr, Inhabited

structure Bounds where
  /-- Universal naturals range from zero to this number. -/
  nat : Nat
  /-- The distance of the reals that are tried. -/
  floatStep : Float
  /-- How many constraints are evaluated before the search gives up. -/
  limit : Nat
  deriving Repr

def Bounds.standard : Bounds :=
  ⟨8, 0.5, 5000000⟩

namespace Grade

def literals : Grade → List Float
  | .float x => [x]
  | .nat n => [Float.ofNat n]
  | .op _ a b => a.literals ++ b.literals
  | _ => []

end Grade

namespace Formula

mutual

def literals : Formula → List Float
  | .atom c => if c.kind = .float then c.left.literals ++ c.right.literals else []
  | .and items => literalsAll items
  | .implies a b => a.literals ++ b.literals
  | .forAll _ body => body.literals
  | .forSome _ body => body.literals

def literalsAll : List Formula → List Float
  | [] => []
  | f :: fs => f.literals ++ literalsAll fs

end

mutual

/--
The equations that a true formula makes true.
-/
def equations : Formula → List Constraint
  | .atom c => if c.relation = .eq then [c] else []
  | .and items => equationsAll items
  | _ => []

def equationsAll : List Formula → List Constraint
  | [] => []
  | f :: fs => f.equations ++ equationsAll fs

end

end Formula

namespace Search

def dropNear : List Float → List Float
  | [] => []
  | x :: xs => x :: go x xs
where
  go (last : Float) : List Float → List Float
    | [] => []
    | x :: xs => if (x - last).abs ≤ 2.220446049250313e-16 then go last xs else x :: go x xs

def grid (step : Float) (upper : Nat) (literals : List Float) : List Float :=
  let multiples :=
    if step > 0 then
      let count := (Float.ofNat upper / step).floor.toUInt64.toNat
      (List.range (count + 1)).map fun k => Float.ofNat k * step
    else
      []
  dropNear ((literals ++ 0 :: multiples).mergeSort fun a b => !(b < a))

structure Domain where
  upper : Nat
  floats : Thunk (List Float)

-- The reals are listed when they are first needed.
def Domain.upTo (upper : Nat) (step : Float) (literals : List Float) : Domain :=
  ⟨upper, .mk fun _ => grid step upper literals⟩

/--
How many constraints were evaluated, and whether a universal over an unbounded kind held for every value
tried.
-/
structure Progress where
  steps : Nat
  truncated : Bool
  deriving DecidableEq, Repr

def Progress.start : Progress :=
  ⟨0, false⟩

end Search

structure Search where
  universal : Search.Domain
  existential : Search.Domain
  limit : Nat

abbrev SearchM := EStateM Doubt Search.Progress

namespace Search

def ofQuery (b : Bounds) (q : Query) : Search :=
  let literals := q.body.literals
  ⟨.upTo b.nat b.floatStep literals, .upTo ((2 * b.nat + 1) % (maxWord + 1)) b.floatStep literals, b.limit⟩

def step (s : Search) : SearchM Unit := do
  let p ← get
  let steps := p.steps + 1
  set { p with steps }
  if s.limit < steps then throw (.gaveUp s.limit)

/--
A universal over the kind held for every value tried. Levels are finite, so that nothing is left out.
-/
def exhausted (kind : GradeKind) : SearchM Unit :=
  if kind = .level then return () else modify fun p => { p with truncated := true }

def findFirst {α : Type} (f : Value → SearchM (Option α)) : List Value → SearchM (Option α)
  | [] => return none
  | v :: vs => do
    match ← f v with
    | some found => return some found
    | none => findFirst f vs

def findFirstNat {α : Type} (f : Value → SearchM (Option α)) (first : Nat) : (count : Nat) → SearchM (Option α)
  | 0 => return none
  | count + 1 => do
    match ← f (.nat first) with
    | some found => return some found
    | none => findFirstNat f (first + 1) count

def Domain.findFirst {α : Type} (d : Domain) (kind : GradeKind) (f : Value → SearchM (Option α)) :
    SearchM (Option α) :=
  match kind with
  | .level => Search.findFirst f [.level .unused, .level .visible, .level .secret]
  | .float => Search.findFirst f (d.floats.get.map .float)
  | .nat => findFirstNat f 0 (d.upper + 1)
  | .var _ => findFirstNat f 0 (d.upper + 1)

def Domain.runThrough (d : Domain) (kind : GradeKind) (stop : Bool) (f : Value → SearchM Bool) : SearchM Bool := do
  match ← d.findFirst kind fun v => return if (← f v) == stop then some () else none with
  | some () => return stop
  | none => return !stop

def forAll (s : Search) (f : Assignment → SearchM Bool) : List Bound → Assignment → SearchM Bool
  | [], a => f a
  | (x, kind) :: vars, a => do
    let all ← s.universal.runThrough kind false fun v => forAll s f vars ((x, v) :: a)
    if all then exhausted kind
    return all

def forSome (s : Search) (f : Assignment → SearchM Bool) : List Bound → Assignment → SearchM Bool
  | [], a => f a
  | (x, kind) :: vars, a =>
    s.existential.runThrough kind true fun v => forSome s f vars ((x, v) :: a)

def solveSide? (pending : List Bound) (a : Assignment) (kind : GradeKind) : Grade → Grade → Option (String × Value)
  | .var x, g =>
    if pending.any (·.1 = x) then
      match g.evaluate kind a with
      | .ok v => some (x, v)
      | .error _ => none
    else
      none
  | _, _ => none

def solve? (pending : List Bound) (a : Assignment) (c : Constraint) : Option (String × Value) :=
  (solveSide? pending a c.kind c.left c.right).or (solveSide? pending a c.kind c.right c.left)

/--
Give values to the variables that equations determine, until no equation determines another one. The
variables that remain have to be searched.
-/
def propagate (equations : List Constraint) (pending : List Bound) (a : Assignment) : List Bound × Assignment :=
  go pending.length pending a
where
  go : Nat → List Bound → Assignment → List Bound × Assignment
    | 0, pending, a => (pending, a)
    | n + 1, pending, a =>
      match equations.findSome? (solve? pending a) with
      | some (x, v) => go n (pending.eraseP (·.1 = x)) ((x, v) :: a)
      | none => (pending, a)

mutual

def eval (s : Search) : Formula → Assignment → SearchM Bool
  | .atom c, a => do
    s.step
    match c.holds a with
    | .ok b => return b
    | .error e => throw (.eval e)
  | .and items, a => evalAll s items a
  | .implies p q, a => do
    if ← eval s p a then eval s q a else return true
  | .forAll vars body, a => s.forAll (fun a => eval s body a) vars a
  | .forSome vars body, a =>
    let (rest, a) := propagate body.equations vars a
    s.forSome (fun a => eval s body a) rest a

def evalAll (s : Search) : List Formula → Assignment → SearchM Bool
  | [], _ => return true
  | f :: fs, a => do
    if ← eval s f a then evalAll s fs a else return false

end

def falsify (s : Search) (body : Formula) : List Bound → Assignment → SearchM (Option Assignment)
  | [], a => do
    if ← s.eval body a then return none else return some a
  | (x, kind) :: vars, a => do
    match ← s.universal.findFirst kind fun v => falsify s body vars ((x, v) :: a) with
    | some found => return some found
    | none =>
      exhausted kind
      return none

end Search

def Query.search (q : Query) (b : Bounds) : Verdict :=
  match (Search.ofQuery b q).falsify q.body q.universals [] |>.run .start with
  | .ok (some a) _ => .invalid a.reverse
  | .ok none p => if p.truncated then .undecided (.noCounterexample b.nat) else .valid
  | .error doubt _ => .undecided doubt

end GradedModal
