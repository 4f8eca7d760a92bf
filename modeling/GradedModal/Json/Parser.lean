import GradedModal.Json.Basic

/-!
This module reads JSON text. What cannot be used as a value does not spoil the text around it: a string
with half a character, and arrays and objects that are nested deeper than the caller wants, are read as
`unreadable`. The reader keeps the arrays and objects that are still open on a stack, so that it follows
any nesting.
-/

namespace GradedModal
namespace Json
namespace Parser

abbrev Reader (α : Type) := List Char → Option (α × List Char)

def isBlank (c : Char) : Bool :=
  c = ' ' || c = '\n' || c = '\t' || c = '\r'

def skipBlanks (cs : List Char) : List Char :=
  cs.dropWhile isBlank

def word (expected : List Char) (cs : List Char) : Option (List Char) :=
  if expected.isPrefixOf cs then some (cs.drop expected.length) else none

def hexDigit? (c : Char) : Option Nat :=
  if '0' ≤ c ∧ c ≤ '9' then some (c.toNat - '0'.toNat)
  else if 'a' ≤ c ∧ c ≤ 'f' then some (c.toNat - 'a'.toNat + 10)
  else if 'A' ≤ c ∧ c ≤ 'F' then some (c.toNat - 'A'.toNat + 10)
  else none

def unit : Reader Nat
  | a :: b :: c :: d :: rest => do
    let digits ← [a, b, c, d].mapM hexDigit?
    return (digits.foldl (fun n d => 16 * n + d) 0, rest)
  | _ => none

def lowSurrogate : Reader Nat := fun cs => do
  let rest ← word ['\\', 'u'] cs
  let (low, rest) ← unit rest
  if 0xDC00 ≤ low ∧ low < 0xE000 then return (low, rest) else none

/--
The character of an escape with hexadecimal digits. Two surrogates in a row make one character, and a
surrogate alone makes none.
-/
def unicode : Reader (Option Char) := fun cs => do
  let (high, rest) ← unit cs
  if 0xD800 ≤ high ∧ high < 0xDC00 then
    match lowSurrogate rest with
    | some (low, rest) => return (some (Char.ofNat (0x10000 + (high - 0xD800) * 0x400 + (low - 0xDC00))), rest)
    | none => return (none, rest)
  else if 0xDC00 ≤ high ∧ high < 0xE000 then
    return (none, rest)
  else
    return (some (Char.ofNat high), rest)

def escape : Reader (Option Char)
  | '"' :: rest => some (some '"', rest)
  | '\\' :: rest => some (some '\\', rest)
  | '/' :: rest => some (some '/', rest)
  | 'b' :: rest => some (some '\x08', rest)
  | 'f' :: rest => some (some '\x0c', rest)
  | 'n' :: rest => some (some '\n', rest)
  | 'r' :: rest => some (some '\r', rest)
  | 't' :: rest => some (some '\t', rest)
  | 'u' :: rest => unicode rest
  | _ => none

/--
The rest of a string after its opening quote; `done` holds its characters so far, last first, unless one
of them was half a character. The string has fewer than `steps` characters.
-/
def string : Nat → Option (List Char) → Reader (Option String)
  | 0, _, _ => none
  | steps + 1, done, cs =>
    match cs with
    | [] => none
    | '"' :: rest => some (done.map fun done => String.ofList done.reverse, rest)
    | '\\' :: rest => do
      let (c, rest) ← escape rest
      string steps (do return (← c) :: (← done)) rest
    | c :: rest => if c.toNat < 0x20 then none else string steps (done.map (c :: ·)) rest

def digits : Reader (List Char) := fun cs =>
  match cs.takeWhile Char.isDigit with
  | [] => none
  | ds => some (ds, cs.dropWhile Char.isDigit)

def wholePart : Reader (List Char) := fun cs => do
  let (ds, rest) ← digits cs
  match ds with
  | '0' :: _ :: _ => none
  | ds => return (ds, rest)

def fractionPart : Reader (Option (List Char))
  | '.' :: rest => do
    let (ds, rest) ← digits rest
    return (some ds, rest)
  | rest => some (none, rest)

def exponentDigits : Reader Int
  | '-' :: rest => do
    let (ds, rest) ← digits rest
    return (-(Decimal.ofDigits ds : Int), rest)
  | '+' :: rest => do
    let (ds, rest) ← digits rest
    return (Decimal.ofDigits ds, rest)
  | rest => do
    let (ds, rest) ← digits rest
    return (Decimal.ofDigits ds, rest)

def exponentPart : Reader (Option Int)
  | 'e' :: rest => do
    let (n, rest) ← exponentDigits rest
    return (some n, rest)
  | 'E' :: rest => do
    let (n, rest) ← exponentDigits rest
    return (some n, rest)
  | rest => some (none, rest)

def number (negative : Bool) : Reader Number := fun cs => do
  let (whole, rest) ← wholePart cs
  let (fraction, rest) ← fractionPart rest
  let (exponent, rest) ← exponentPart rest
  let ds := fraction.getD []
  let number : Number :=
    { negative
      significand := Decimal.ofDigits (whole ++ ds)
      exponent := exponent.getD 0 - ds.length
      whole := fraction.isNone && exponent.isNone }
  return (number, rest)

def scalar (steps : Nat) : Reader Json
  | 'n' :: rest => do return (.null, ← word ['u', 'l', 'l'] rest)
  | 't' :: rest => do return (.bool true, ← word ['r', 'u', 'e'] rest)
  | 'f' :: rest => do return (.bool false, ← word ['a', 'l', 's', 'e'] rest)
  | '"' :: rest => do
    let (s, rest) ← string steps (some []) rest
    return ((s.map .str).getD .unreadable, rest)
  | '-' :: rest => do
    let (n, rest) ← number true rest
    return (.num n, rest)
  | rest => do
    let (n, rest) ← number false rest
    return (.num n, rest)

def memberName (steps : Nat) : Reader (Option String) := fun cs =>
  match skipBlanks cs with
  | '"' :: rest => do
    let (name, rest) ← string steps (some []) rest
    return (name, ← word [':'] (skipBlanks rest))
  | _ => none

def separator (close : Char) : Reader Bool := fun cs =>
  match skipBlanks cs with
  | [] => none
  | c :: rest => if c = close then some (false, rest) else if c = ',' then some (true, rest) else none

/--
An array or an object that is still open, with its contents so far, last first. An object waits for the
value of the member `name`.
-/
inductive Frame where
  | arr (done : List Json)
  | obj (done : List (Option String × Json)) (name : Option String)

def object (done : List (Option String × Json)) : Json :=
  -- A name may have half a character in it.
  match done.reverse.mapM fun (name, j) => return (← name, j) with
  | some members => .obj members
  | none => .unreadable

def within (limit depth : Nat) (j : Json) : Json :=
  if depth < limit then j else .unreadable

/--
Read on inside the open frames, of which there are `depth`, until they are closed. Either a value comes
next, or the value `ended` was just read. Every step but the last consumes a character, so that one step
more than there are characters is always enough.
-/
def run (limit : Nat) : (steps depth : Nat) → List Frame → (ended : Option Json) → Reader Json
  | 0, _, _, _, _ => none
  | steps + 1, depth, frames, none, cs =>
    match skipBlanks cs with
    | '[' :: rest =>
      match skipBlanks rest with
      | ']' :: rest => run limit steps depth frames (some (within limit depth (.arr []))) rest
      | rest => run limit steps (depth + 1) (.arr [] :: frames) none rest
    | '\x7b' :: rest =>
      match skipBlanks rest with
      | '\x7d' :: rest => run limit steps depth frames (some (within limit depth (.obj []))) rest
      | rest => do
        let (name, rest) ← memberName steps rest
        run limit steps (depth + 1) (.obj [] name :: frames) none rest
    | rest => do
      let (j, rest) ← scalar steps rest
      run limit steps depth frames (some j) rest
  | _ + 1, _, [], some j, cs => some (j, cs)
  | steps + 1, depth, .arr done :: frames, some j, cs => do
    let (more, rest) ← separator ']' cs
    if more then
      run limit steps depth (.arr (j :: done) :: frames) none rest
    else
      run limit steps (depth - 1) frames (some (within limit (depth - 1) (.arr (j :: done).reverse))) rest
  | steps + 1, depth, .obj done name :: frames, some j, cs => do
    let (more, rest) ← separator '\x7d' cs
    if more then
      let (next, rest) ← memberName steps rest
      run limit steps depth (.obj ((name, j) :: done) next :: frames) none rest
    else
      run limit steps (depth - 1) frames (some (within limit (depth - 1) (object ((name, j) :: done)))) rest

end Parser

def maxDepth : Nat := 127

def parse? (limit : Nat) (text : String) : Option Json := do
  let cs := text.toList
  let (j, rest) ← Parser.run limit (cs.length + 1) 0 [] none cs
  if (Parser.skipBlanks rest).isEmpty then some j else none

end Json
end GradedModal
