import GradedModal.Syntax.Expr

/-!
This module contains the types, constructors, operators and definitions that every program can use.
-/

namespace GradedModal

structure Builtins where
  types : List (String × Kind)
  constructors : List (String × Scheme)
  /-- The signatures of operators in the order in which they are tried. -/
  operators : List (BinOp × Ty)
  definitions : List (String × Scheme)
  deriving Repr, Inhabited

namespace Builtins

def bind {α : Type} (name : String) (a : α) (table : List (String × α)) : List (String × α) :=
  table.filter (·.1 ≠ name) ++ [(name, a)]

def empty : Builtins :=
  ⟨[], [], [], []⟩

def addType (b : Builtins) (name : String) (kind : Kind) : Builtins :=
  { b with types := bind name kind b.types }

def addConstructor (b : Builtins) (name : String) (scheme : Scheme) : Builtins :=
  { b with constructors := bind name scheme b.constructors }

def addOperator (b : Builtins) (op : BinOp) (ty : Ty) : Builtins :=
  { b with operators := b.operators ++ [(op, ty)] }

def addDefinition (b : Builtins) (name : String) (scheme : Scheme) : Builtins :=
  { b with definitions := bind name scheme b.definitions }

def signatures (b : Builtins) (op : BinOp) : List Ty :=
  (b.operators.filter (·.1 = op)).map (·.2)

def binary (a b result : String) : Ty :=
  .arrow (.const a) (.arrow (.const b) (.const result))

def natKind : Kind :=
  .grade .nat

def succ (ty : Ty) : Ty :=
  .op .plus ty (.index 1)

def number (size : Ty) : Ty :=
  .app (.const "N") size

def standard : Builtins where
  types :=
    [ ("Int", .type), ("Float", .type), ("Bool", .type), ("Unit", .type)
    , ("List", .arrow natKind (.arrow .type .type))
    , ("N", .arrow natKind .type) ]
  constructors :=
    [ ("True", .mono (.const "Bool"))
    , ("False", .mono (.const "Bool"))
    , ("Unit", .mono (.const "Unit"))
    , ("Nil", ⟨[("a", .type)], .list (.index 0) (.var "a")⟩)
    , ("Cons",
        ⟨[("a", .type), ("n", natKind)],
          .arrow (.var "a") (.arrow (.list (.var "n") (.var "a")) (.list (succ (.var "n")) (.var "a")))⟩)
    , ("Z", .mono (number (.index 0)))
    , ("S", ⟨[("n", natKind)], .arrow (number (.var "n")) (number (succ (.var "n")))⟩) ]
  operators :=
    ([.add, .sub, .mul] : List BinOp).flatMap
        (fun op => [(op, binary "Int" "Int" "Int"), (op, binary "Float" "Float" "Float")])
      ++ ([.eq, .ne, .lt, .gt, .le, .ge] : List BinOp).flatMap
        (fun op => [(op, binary "Int" "Int" "Bool"), (op, binary "Float" "Float" "Bool")])
  definitions :=
    [ ("scale",
        ⟨[("r", .grade .float)],
          .arrow (.const "Float") (.arrow (.box (.var "r") (.const "Float")) (.const "Float"))⟩)
    , ("readInt", .mono (.diamond ["R"] (.const "Int")))
    , ("writeInt", .mono (.arrow (.const "Int") (.diamond ["W"] (.const "Unit")))) ]

end Builtins

structure Env where
  builtins : Builtins
  definitions : List (String × Scheme)
  deriving Repr, Inhabited

namespace Env

/--
The signature of a name. A definition of the program hides a builtin one.
-/
def lookup? (env : Env) (name : String) : Option Scheme :=
  (env.definitions.lookup name).or (env.builtins.definitions.lookup name)

end Env
end GradedModal
