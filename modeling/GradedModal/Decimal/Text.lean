import GradedModal.Decimal.Shortest

/-!
This module writes doubles as text and reads decimal text as doubles.
-/

namespace GradedModal
namespace Decimal

def trimZeros (digits : List Char) : List Char × Nat :=
  let zeros := digits.reverse.takeWhile (· = '0')
  (digits.take (digits.length - zeros.length), zeros.length)

/--
Digits with a point after the first `point` of them, padded with zeros, and with at least one digit on
each side of the point.
-/
def positional (digits : List Char) (point : Int) : String :=
  let size := digits.length
  if point ≤ 0 then
    "0." ++ String.ofList (List.replicate (-point).toNat '0' ++ digits)
  else if (size : Int) ≤ point then
    String.ofList (digits ++ List.replicate (point.toNat - size) '0') ++ ".0"
  else
    String.ofList (digits.take point.toNat) ++ "." ++ String.ofList (digits.drop point.toNat)

def scientific (digits : List Char) (point : Int) : String :=
  let mantissa :=
    match digits with
    | [] => "0"
    | [d] => String.singleton d
    | d :: ds => String.singleton d ++ "." ++ String.ofList ds
  mantissa ++ "e" ++ toString (point - 1)

/--
The fewest digits that read back. Magnitudes from `10 ^ (-4)` up to, but not including, `10 ^ 16` are
positional and all others scientific.
-/
def renderMagnitude (x : Float) : String :=
  if x == 0 then
    "0.0"
  else
    let s := (Dyadic.ofFloat x).shortest
    let (digits, dropped) := trimZeros (Nat.toDigits 10 s.digits)
    let point := s.exponent + dropped + digits.length
    if -4 < point ∧ point ≤ 16 then positional digits point else scientific digits point

def isNegative (x : Float) : Bool :=
  Nat.pow 2 63 ≤ x.toBits.toNat

def render (x : Float) : String :=
  if x.isNaN then
    "NaN"
  else
    let sign := if isNegative x then "-" else ""
    sign ++ (if x.isInf then "inf" else renderMagnitude x)

def renderFixed (places : Nat) (x : Float) : String :=
  if x.isNaN then
    "NaN"
  else
    let sign := if isNegative x then "-" else ""
    let magnitude :=
      if x.isInf then
        "inf"
      else
        let n := (Dyadic.ofFloat x).round places
        let fraction := Nat.toDigits 10 (n % Nat.pow 10 places)
        let padded := List.replicate (places - fraction.length) '0' ++ fraction
        toString (n / Nat.pow 10 places) ++ "." ++ String.ofList padded
    sign ++ magnitude

def ofDigits (digits : List Char) : Nat :=
  digits.foldl (fun n c => 10 * n + (c.toNat - '0'.toNat)) 0

def nearest (s : Scaled) : Float :=
  let size : Int := (Nat.toDigits 10 s.digits).length
  if s.digits = 0 ∨ s.exponent + size < -330 then
    0
  else if 310 < s.exponent + size then
    1 / 0
  else
    Float.ofScientific s.digits (s.exponent < 0) s.exponent.natAbs

def readExponent? (cs : List Char) : Option Int :=
  let (negative, digits) :=
    match cs with
    | '-' :: rest => (true, rest)
    | '+' :: rest => (false, rest)
    | rest => (false, rest)
  if digits.isEmpty || !digits.all Char.isDigit then
    none
  else if negative then
    some (-(ofDigits digits : Int))
  else
    some (ofDigits digits)

/--
A number without its sign: digits with an optional point among them and an optional exponent, or one of
the words for infinity and for an undefined number in any case.
-/
def readMagnitude? (cs : List Char) : Option Float :=
  let word := String.ofList (cs.map Char.toLower)
  if word = "inf" ∨ word = "infinity" then
    some (1 / 0)
  else if word = "nan" then
    some (0 / 0)
  else
    let whole := cs.takeWhile Char.isDigit
    let rest := cs.dropWhile Char.isDigit
    let (fraction, rest) :=
      match rest with
      | '.' :: rest => (rest.takeWhile Char.isDigit, rest.dropWhile Char.isDigit)
      | rest => ([], rest)
    if whole.isEmpty && fraction.isEmpty then
      none
    else
      let scaled (exponent : Int) : Float :=
        nearest ⟨ofDigits (whole ++ fraction), exponent - fraction.length⟩
      match rest with
      | [] => some (scaled 0)
      | 'e' :: rest => (readExponent? rest).map scaled
      | 'E' :: rest => (readExponent? rest).map scaled
      | _ => none

def read? (text : String) : Option Float :=
  match text.toList with
  | '-' :: rest => (readMagnitude? rest).map (- ·)
  | '+' :: rest => readMagnitude? rest
  | rest => readMagnitude? rest

end Decimal
end GradedModal
