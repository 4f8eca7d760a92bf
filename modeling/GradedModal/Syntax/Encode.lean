import GradedModal.Json.Basic
import GradedModal.Syntax.Expr

/-!
This module writes syntax as JSON. A constructor without arguments is a string, any other one is an
object with one member, which holds the argument, the list of arguments or a record. The caller chooses
how a double is written.
-/

namespace GradedModal

namespace Json

def tag (name : String) (payload : Json) : Json :=
  .obj [(name, payload)]

def located (pos : Nat) (item : Json) : Json :=
  .obj [("pos", .ofNat pos), ("item", item)]

end Json

def Level.toJson (l : Level) : Json :=
  .str l.render

def GradeKind.toJson : GradeKind → Json
  | .nat => .str "Nat"
  | .float => .str "Float"
  | .level => .str "Level"
  | .var name => .tag "Var" (.str name)

def Kind.toJson : Kind → Json
  | .type => .str "Type"
  | .effect => .str "Effect"
  | .grade kind => .tag "Coeffect" kind.toJson
  | .arrow a b => .tag "Arrow" (.arr [a.toJson, b.toJson])

def Op.tag : Op → String
  | .plus => "Plus"
  | .times => "Times"
  | .join => "Join"
  | .meet => "Meet"

def BinOp.tag : BinOp → String
  | .add => "Add"
  | .sub => "Sub"
  | .mul => "Mul"
  | .eq => "Eq"
  | .ne => "Neq"
  | .lt => "Lt"
  | .gt => "Gt"
  | .le => "Lte"
  | .ge => "Gte"

section

variable (float : Float → Json)

def Grade.toJson : Grade → Json
  | .var name => .tag "Var" (.str name)
  | .nat n => .tag "Nat" (.ofNat n)
  | .float x => .tag "Float" (float x)
  | .level l => .tag "Level" l.toJson
  | .zero kind => .tag "Zero" kind.toJson
  | .one kind => .tag "One" kind.toJson
  | .op o a b => .tag o.tag (.arr [a.toJson, b.toJson])

def Ty.toJson : Ty → Json
  | .const n => .tag "Name" (.str n)
  | .arrow a b => .tag "Fun" (.arr [a.toJson, b.toJson])
  | .app a b => .tag "App" (.arr [a.toJson, b.toJson])
  | .var name => .tag "Var" (.str name)
  | .box grade ty => .tag "Box" (.arr [grade.toJson float, ty.toJson])
  | .diamond effects ty => .tag "Diamond" (.arr [.arr (effects.map .str), ty.toJson])
  | .pair a b => .tag "Pair" (.arr [a.toJson, b.toJson])
  | .index n => .tag "Int" (.ofNat n)
  | .op o a b => .tag "Infix" (.arr [.str o.tag, a.toJson, b.toJson])

def Scheme.toJson (s : Scheme) : Json :=
  .obj [("vars", .arr (s.vars.map fun (name, kind) => .arr [.str name, kind.toJson])), ("ty", s.ty.toJson float)]

def Binder.toJson (b : Binder) : Json :=
  .located b.pos (.str b.name)

mutual

def Pattern.itemToJson : Pattern → Json
  | .var _ name => .tag "Var" (.str name)
  | .wildcard _ => .str "Wildcard"
  | .int _ n => .tag "Int" (.ofInt n)
  | .float _ x => .tag "Float" (float x)
  | .box _ inner => .tag "Box" inner.toJson
  | .pair _ a b => .tag "Pair" (.arr [a.toJson, b.toJson])
  | .constructor _ name args =>
    .tag "Constructor" (.obj [("name", .str name), ("args", .arr (Pattern.toJsonAll args))])

def Pattern.toJson (p : Pattern) : Json :=
  .located p.pos p.itemToJson

def Pattern.toJsonAll : List Pattern → List Json
  | [] => []
  | p :: ps => p.toJson :: Pattern.toJsonAll ps

end

def Expr.annotationToJson (ty : Option Ty) : Json :=
  (ty.map (Ty.toJson float)).getD .null

mutual

def Expr.itemToJson : Expr → Json
  | .int _ n => .tag "Int" (.ofInt n)
  | .float _ x => .tag "Float" (float x)
  | .var _ name => .tag "Var" (.str name)
  | .constructor _ name => .tag "Constructor" (.str name)
  | .lam _ binder ty body =>
    .tag "Lam" (.obj [("name", binder.toJson), ("ty", Expr.annotationToJson float ty), ("body", body.toJson)])
  | .app _ f a => .tag "App" (.arr [f.toJson, a.toJson])
  | .promote _ e => .tag "Promote" e.toJson
  | .lift _ e => .tag "Pure" e.toJson
  | .binop _ op a b => .tag "Binop" (.arr [.str op.tag, a.toJson, b.toJson])
  | .pair _ a b => .tag "Pair" (.arr [a.toJson, b.toJson])
  | .case _ scrutinee branches => .tag "Case" (.arr [scrutinee.toJson, .arr (Expr.branchesToJson branches)])
  | .letDiamond _ binder ty value rest =>
    .tag "LetDiamond" (.obj
      [("name", binder.toJson), ("ty", Expr.annotationToJson float ty), ("value", value.toJson), ("rest", rest.toJson)])
  | .letBox _ binder ty value rest =>
    .tag "LetBox" (.obj
      [("name", binder.toJson), ("ty", ty.toJson float), ("value", value.toJson), ("rest", rest.toJson)])

def Expr.toJson (e : Expr) : Json :=
  .located e.pos e.itemToJson

def Expr.branchesToJson : List (Pattern × Expr) → List Json
  | [] => []
  | (pattern, body) :: branches =>
    .obj [("pattern", pattern.toJson float), ("body", body.toJson)] :: Expr.branchesToJson branches

end

def Definition.toJson (d : Definition) : Json :=
  .obj
    [ ("name", d.binder.toJson)
    , ("patterns", .arr (Pattern.toJsonAll float d.patterns))
    , ("body", d.body.toJson float)
    , ("scheme", d.scheme.toJson float) ]

end

end GradedModal
