import GradedModal.Syntax.Ty

/-!
This module contains patterns, expressions and definitions. Every node carries the offset in the source
at which it starts.
-/

namespace GradedModal

structure Binder where
  pos : Nat
  name : String
  deriving DecidableEq, Repr, Inhabited

inductive Pattern where
  | var (pos : Nat) (name : String)
  | wildcard (pos : Nat)
  | int (pos : Nat) (n : Int)
  | float (pos : Nat) (x : Float)
  /-- `[p]` -/
  | box (pos : Nat) (inner : Pattern)
  | pair (pos : Nat) (a b : Pattern)
  | constructor (pos : Nat) (name : String) (args : List Pattern)
  deriving Repr, Inhabited

namespace Pattern

def pos : Pattern → Nat
  | .var pos _ => pos
  | .wildcard pos => pos
  | .int pos _ => pos
  | .float pos _ => pos
  | .box pos _ => pos
  | .pair pos _ _ => pos
  | .constructor pos _ _ => pos

mutual

def boundVars : Pattern → List String
  | .var _ name => [name]
  | .wildcard _ => []
  | .int _ _ => []
  | .float _ _ => []
  | .box _ inner => inner.boundVars
  | .pair _ a b => a.boundVars ++ b.boundVars
  | .constructor _ _ args => boundVarsAll args

def boundVarsAll : List Pattern → List String
  | [] => []
  | p :: ps => p.boundVars ++ boundVarsAll ps

end

/--
Whether the pattern needs parentheses as an argument of a constructor.
-/
def isApplied : Pattern → Bool
  | .constructor _ _ args => !args.isEmpty
  | _ => false

mutual

def render : Pattern → String
  | .var _ name => name
  | .wildcard _ => "_"
  | .int _ n => toString n
  | .float _ x => Decimal.render x
  | .box _ inner => "[" ++ inner.render ++ "]"
  | .pair _ a b => "(" ++ a.render ++ ", " ++ b.render ++ ")"
  | .constructor _ name args => name ++ renderArgs args

def renderArgs : List Pattern → String
  | [] => ""
  | p :: ps =>
    (if p.isApplied then " (" ++ p.render ++ ")" else " " ++ p.render) ++ renderArgs ps

end

end Pattern

inductive BinOp where
  | add
  | sub
  | mul
  | eq
  | ne
  | lt
  | gt
  | le
  | ge
  deriving DecidableEq, Repr, Inhabited

def BinOp.render : BinOp → String
  | .add => "+"
  | .sub => "-"
  | .mul => "*"
  | .eq => "=="
  | .ne => "/="
  | .lt => "<"
  | .gt => ">"
  | .le => "<="
  | .ge => ">="

inductive Expr where
  | int (pos : Nat) (n : Int)
  | float (pos : Nat) (x : Float)
  | var (pos : Nat) (name : String)
  | constructor (pos : Nat) (name : String)
  | lam (pos : Nat) (binder : Binder) (ty : Option Ty) (body : Expr)
  | app (pos : Nat) (f a : Expr)
  /-- `[e]` -/
  | promote (pos : Nat) (e : Expr)
  /-- `<e>`, a computation without effects. -/
  | lift (pos : Nat) (e : Expr)
  | binop (pos : Nat) (op : BinOp) (a b : Expr)
  | pair (pos : Nat) (a b : Expr)
  | case (pos : Nat) (scrutinee : Expr) (branches : List (Pattern × Expr))
  /-- `let x <- value ; rest` -/
  | letDiamond (pos : Nat) (binder : Binder) (ty : Option Ty) (value rest : Expr)
  /-- `let [x] : ty = value in rest` -/
  | letBox (pos : Nat) (binder : Binder) (ty : Ty) (value rest : Expr)
  deriving Repr, Inhabited

namespace Expr

def pos : Expr → Nat
  | .int pos _ => pos
  | .float pos _ => pos
  | .var pos _ => pos
  | .constructor pos _ => pos
  | .lam pos _ _ _ => pos
  | .app pos _ _ => pos
  | .promote pos _ => pos
  | .lift pos _ => pos
  | .binop pos _ _ _ => pos
  | .pair pos _ _ => pos
  | .case pos _ _ => pos
  | .letDiamond pos _ _ _ _ => pos
  | .letBox pos _ _ _ _ => pos

mutual

def freeOccurrences : Expr → List String
  | .int _ _ => []
  | .float _ _ => []
  | .var _ name => [name]
  | .constructor _ _ => []
  | .lam _ binder _ body => body.freeOccurrences.filter (· != binder.name)
  | .app _ f a => f.freeOccurrences ++ a.freeOccurrences
  | .promote _ e => e.freeOccurrences
  | .lift _ e => e.freeOccurrences
  | .binop _ _ a b => a.freeOccurrences ++ b.freeOccurrences
  | .pair _ a b => a.freeOccurrences ++ b.freeOccurrences
  | .case _ scrutinee branches => scrutinee.freeOccurrences ++ freeOccurrencesAll branches
  | .letDiamond _ binder _ value rest =>
    value.freeOccurrences ++ rest.freeOccurrences.filter (· != binder.name)
  | .letBox _ binder _ value rest =>
    value.freeOccurrences ++ rest.freeOccurrences.filter (· != binder.name)

def freeOccurrencesAll : List (Pattern × Expr) → List String
  | [] => []
  | (pattern, body) :: branches =>
    body.freeOccurrences.filter (!pattern.boundVars.contains ·) ++ freeOccurrencesAll branches

end

def freeVars (e : Expr) : List String :=
  e.freeOccurrences.eraseDups

end Expr

structure Definition where
  binder : Binder
  patterns : List Pattern
  body : Expr
  scheme : Scheme
  deriving Repr, Inhabited

end GradedModal
