/-!
This module contains the S-expressions in which queries are put to a solver and answered by it.
-/

namespace GradedModal

inductive SExpr where
  | atom (text : String)
  | list (items : List SExpr)
  deriving Repr, Inhabited

namespace SExpr

mutual

def render : SExpr → String
  | .atom text => text
  | .list items => "(" ++ " ".intercalate (renderAll items) ++ ")"

def renderAll : List SExpr → List String
  | [] => []
  | e :: es => e.render :: renderAll es

end

def app (f : String) (args : List SExpr) : SExpr :=
  .list (.atom f :: args)

def isBlank (c : Char) : Bool :=
  let n := c.toNat
  (0x09 ≤ n && n ≤ 0x0D) || n = 0x20 || n = 0x85 || n = 0xA0 || n = 0x1680 || (0x2000 ≤ n && n ≤ 0x200A)
    || n = 0x2028 || n = 0x2029 || n = 0x202F || n = 0x205F || n = 0x3000

def isParen (c : Char) : Bool :=
  c = '(' || c = ')'

inductive Reading where
  | between
  /-- Inside a word, whose characters are held last first. -/
  | word (done : List Char)
  /-- After an opening bar. -/
  | quoted (done : List Char)

/--
The tokens of a text: parentheses, words, and quoted words, which stand between bars and lose them.
-/
def tokens (text : String) : List String :=
  go .between text.toList
where
  go : Reading → List Char → List String
    | .between, [] => []
    | .word done, [] => [String.ofList done.reverse]
    | .quoted done, [] => [String.ofList done.reverse]
    | .between, c :: cs =>
      if isParen c then String.singleton c :: go .between cs
      else if c = '|' then go (.quoted []) cs
      else if isBlank c then go .between cs
      else go (.word [c]) cs
    | .word done, c :: cs =>
      if isParen c then String.ofList done.reverse :: String.singleton c :: go .between cs
      else if isBlank c then String.ofList done.reverse :: go .between cs
      else go (.word (c :: done)) cs
    | .quoted done, c :: cs =>
      if c = '|' then String.ofList done.reverse :: go .between cs else go (.quoted (c :: done)) cs

/--
Read one expression from a position on, and return the position after the last token that was looked at, also if there
is no expression.
-/
def parse (tokens : List String) (pos : Nat) : Option SExpr × Nat :=
  go [] pos (tokens.drop pos)
where
  /-- The lists that are open, innermost first, each with its items last first. -/
  go : List (List SExpr) → Nat → List String → Option SExpr × Nat
    | _, pos, [] => (none, pos)
    | opened, pos, t :: ts =>
      if t = "(" then
        go ([] :: opened) (pos + 1) ts
      else if t = ")" then
        match opened with
        | [] => (none, pos + 1)
        | [items] => (some (.list items.reverse), pos + 1)
        | items :: outer :: opened => go ((.list items.reverse :: outer) :: opened) (pos + 1) ts
      else
        match opened with
        | [] => (some (.atom t), pos + 1)
        | items :: opened => go ((.atom t :: items) :: opened) (pos + 1) ts

end SExpr
end GradedModal
