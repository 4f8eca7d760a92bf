import GradedModal.Json.Parser
import GradedModal.Syntax.Encode

/-!
This module reads syntax from JSON. It accepts what is written by `Syntax.Encode`, and three variations:
a constructor without arguments may be an object whose only member is null, a record may be the array of
its values, and it may have further members, which are ignored. In a text, the named fields of a
constructor are a record like any other; elsewhere they have to be an object. The argument `listed` tells
which of the two holds.
-/

namespace GradedModal

def Level.ofTag? : String → Option Level
  | "Unused" => some .unused
  | "Public" => some .visible
  | "Private" => some .secret
  | _ => none

def Op.ofTag? : String → Option Op
  | "Plus" => some .plus
  | "Times" => some .times
  | "Join" => some .join
  | "Meet" => some .meet
  | _ => none

def BinOp.ofTag? : String → Option BinOp
  | "Add" => some .add
  | "Sub" => some .sub
  | "Mul" => some .mul
  | "Eq" => some .eq
  | "Neq" => some .ne
  | "Lt" => some .lt
  | "Gt" => some .gt
  | "Lte" => some .le
  | "Gte" => some .ge
  | _ => none

def Json.bareTag? : Json → Option String
  | .str tag => some tag
  | .obj [(tag, .null)] => some tag
  | _ => none

def Level.ofJson? (j : Json) : Option Level :=
  j.bareTag?.bind Level.ofTag?

def Op.ofJson? (j : Json) : Option Op :=
  j.bareTag?.bind Op.ofTag?

def BinOp.ofJson? (j : Json) : Option BinOp :=
  j.bareTag?.bind BinOp.ofTag?

def GradeKind.ofTag? : String → Option GradeKind
  | "Nat" => some .nat
  | "Float" => some .float
  | "Level" => some .level
  | _ => none

def GradeKind.ofJson? : Json → Option GradeKind
  | .obj [("Var", .str name)] => some (.var name)
  | j => j.bareTag?.bind GradeKind.ofTag?

def Kind.ofTag? : String → Option Kind
  | "Type" => some .type
  | "Effect" => some .effect
  | _ => none

def Kind.ofJson? : Json → Option Kind
  | .obj [("Coeffect", j)] => do return .grade (← GradeKind.ofJson? j)
  | .obj [("Arrow", .arr [a, b])] => do return .arrow (← Kind.ofJson? a) (← Kind.ofJson? b)
  | j => j.bareTag?.bind Kind.ofTag?

def Grade.ofJson? : Json → Option Grade
  | .obj [("Var", .str name)] => some (.var name)
  | .obj [("Nat", j)] => do return .nat (← j.word?)
  | .obj [("Float", j)] => do return .float (← j.float?)
  | .obj [("Level", j)] => do return .level (← Level.ofJson? j)
  | .obj [("Zero", j)] => do return .zero (← GradeKind.ofJson? j)
  | .obj [("One", j)] => do return .one (← GradeKind.ofJson? j)
  | .obj [(tag, .arr [a, b])] => do return .op (← Op.ofTag? tag) (← Grade.ofJson? a) (← Grade.ofJson? b)
  | _ => none

def Ty.ofJson? : Json → Option Ty
  | .obj [("Name", .str n)] => some (.const n)
  | .obj [("Var", .str name)] => some (.var name)
  | .obj [("Int", j)] => do return .index (← j.word?)
  | .obj [("Fun", .arr [a, b])] => do return .arrow (← Ty.ofJson? a) (← Ty.ofJson? b)
  | .obj [("App", .arr [a, b])] => do return .app (← Ty.ofJson? a) (← Ty.ofJson? b)
  | .obj [("Pair", .arr [a, b])] => do return .pair (← Ty.ofJson? a) (← Ty.ofJson? b)
  | .obj [("Box", .arr [g, a])] => do return .box (← Grade.ofJson? g) (← Ty.ofJson? a)
  | .obj [("Diamond", .arr [effects, a])] => do return .diamond (← effects.list? Json.str?) (← Ty.ofJson? a)
  | .obj [("Infix", .arr [o, a, b])] => do return .op (← Op.ofJson? o) (← Ty.ofJson? a) (← Ty.ofJson? b)
  | _ => none

/--
An optional annotation, which may be missing or null.
-/
def Ty.ofOptionalJson? : Option Json → Option (Option Ty)
  | none => some none
  | some .null => some none
  | some j => (Ty.ofJson? j).map some

def Kind.bindersOfJson? (j : Json) : Option (List (String × Kind)) :=
  j.list? (Json.pair? Json.str? Kind.ofJson?)

def Scheme.ofJson? (j : Json) : Option Scheme := do
  match ← j.record? ["vars", "ty"] with
  | [some vars, some ty] => return ⟨← Kind.bindersOfJson? vars, ← Ty.ofJson? ty⟩
  | _ => none

def Json.located? (j : Json) : Option (Nat × { v : Json // sizeOf v < sizeOf j }) := do
  match ← j.record? ["pos", "item"] with
  | [some pos, some item] => return (← pos.val.word?, item)
  | _ => none

def Binder.ofJson? (j : Json) : Option Binder := do
  let (pos, item) ← j.located?
  return ⟨pos, ← item.val.str?⟩

mutual

def Pattern.ofItem? (listed : Bool) (pos : Nat) (j : Json) : Option Pattern :=
  match j with
  | .obj [(tag, v)] =>
    match tag, v with
    | "Wildcard", .null => some (.wildcard pos)
    | "Var", .str name => some (.var pos name)
    | "Int", n => do return .int pos (← n.signed?)
    | "Float", x => do return .float pos (← x.float?)
    | "Box", inner => do return .box pos (← Pattern.ofJson? listed inner)
    | "Pair", .arr [a, b] => do return .pair pos (← Pattern.ofJson? listed a) (← Pattern.ofJson? listed b)
    | "Constructor", r => do
      match ← r.fields? listed ["name", "args"] with
      | [some name, some ⟨.arr args, h⟩] =>
        have : sizeOf args < sizeOf r := by simp at h; omega
        return .constructor pos (← name.val.str?) (← Pattern.listOfJson? listed args)
      | _ => none
    | _, _ => none
  | .str "Wildcard" => some (.wildcard pos)
  | _ => none
termination_by (sizeOf j, 0)

def Pattern.ofJson? (listed : Bool) (j : Json) : Option Pattern := do
  let (pos, item) ← j.located?
  Pattern.ofItem? listed pos item.val
termination_by (sizeOf j, 0)
decreasing_by exact Prod.Lex.left _ _ item.property

def Pattern.listOfJson? (listed : Bool) (js : List Json) : Option (List Pattern) :=
  match js with
  | [] => some []
  | j :: js => do return (← Pattern.ofJson? listed j) :: (← Pattern.listOfJson? listed js)
termination_by (sizeOf js, 0)

end

mutual

def Expr.ofItem? (listed : Bool) (pos : Nat) (j : Json) : Option Expr :=
  match j with
  | .obj [(tag, v)] =>
    match tag, v with
    | "Int", n => do return .int pos (← n.signed?)
    | "Float", x => do return .float pos (← x.float?)
    | "Var", .str name => some (.var pos name)
    | "Constructor", .str name => some (.constructor pos name)
    | "Lam", r => do
      match ← r.fields? listed ["name", "ty", "body"] with
      | [some name, ty, some ⟨body, _⟩] =>
        return .lam pos (← Binder.ofJson? name.val) (← Ty.ofOptionalJson? (ty.map (·.val)))
          (← Expr.ofJson? listed body)
      | _ => none
    | "App", .arr [f, a] => do return .app pos (← Expr.ofJson? listed f) (← Expr.ofJson? listed a)
    | "Promote", e => do return .promote pos (← Expr.ofJson? listed e)
    | "Pure", e => do return .lift pos (← Expr.ofJson? listed e)
    | "Binop", .arr [op, a, b] => do
      return .binop pos (← BinOp.ofJson? op) (← Expr.ofJson? listed a) (← Expr.ofJson? listed b)
    | "Pair", .arr [a, b] => do return .pair pos (← Expr.ofJson? listed a) (← Expr.ofJson? listed b)
    | "Case", .arr [scrutinee, .arr branches] => do
      return .case pos (← Expr.ofJson? listed scrutinee) (← Expr.branchesOfJson? listed branches)
    | "LetDiamond", r => do
      match ← r.fields? listed ["name", "ty", "value", "rest"] with
      | [some name, ty, some ⟨value, _⟩, some ⟨rest, _⟩] =>
        return .letDiamond pos (← Binder.ofJson? name.val) (← Ty.ofOptionalJson? (ty.map (·.val)))
          (← Expr.ofJson? listed value) (← Expr.ofJson? listed rest)
      | _ => none
    | "LetBox", r => do
      match ← r.fields? listed ["name", "ty", "value", "rest"] with
      | [some name, some ty, some ⟨value, _⟩, some ⟨rest, _⟩] =>
        return .letBox pos (← Binder.ofJson? name.val) (← Ty.ofJson? ty.val) (← Expr.ofJson? listed value)
          (← Expr.ofJson? listed rest)
      | _ => none
    | _, _ => none
  | _ => none
termination_by (sizeOf j, 0)

def Expr.ofJson? (listed : Bool) (j : Json) : Option Expr := do
  let (pos, item) ← j.located?
  Expr.ofItem? listed pos item.val
termination_by (sizeOf j, 0)
decreasing_by exact Prod.Lex.left _ _ item.property

def Expr.branchesOfJson? (listed : Bool) (js : List Json) : Option (List (Pattern × Expr)) :=
  match js with
  | [] => some []
  | j :: js => do
    match ← j.record? ["pattern", "body"] with
    | [some pattern, some ⟨body, _⟩] =>
      return (← Pattern.ofJson? listed pattern.val, ← Expr.ofJson? listed body)
        :: (← Expr.branchesOfJson? listed js)
    | _ => none
termination_by (sizeOf js, 0)

end

def Definition.ofJson? (listed : Bool) (j : Json) : Option Definition := do
  match ← j.record? ["name", "patterns", "body", "scheme"] with
  | [some name, some patterns, some body, some scheme] =>
    return ⟨← Binder.ofJson? name.val, ← patterns.val.list? (Pattern.ofJson? listed),
      ← Expr.ofJson? listed body.val, ← Scheme.ofJson? scheme.val⟩
  | _ => none

def Definition.listOfJson? (listed : Bool) (j : Json) : Option (List Definition) :=
  j.list? (Definition.ofJson? listed)

def Definition.parseList? (text : String) : Option (List Definition) :=
  (Json.parse? Json.maxDepth text).bind (Definition.listOfJson? true)

end GradedModal
