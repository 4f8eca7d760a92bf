/-!
This module turns a double into decimal digits: the fewest digits that read back as the same double,
and a fixed number of places. All arithmetic is exact, on natural numbers.
-/

namespace GradedModal
namespace Decimal

structure Dyadic where
  significand : Nat
  exponent : Int
  deriving DecidableEq, Repr

structure Scaled where
  digits : Nat
  exponent : Int
  deriving DecidableEq, Repr

def Dyadic.ofFloat (x : Float) : Dyadic :=
  let bits := x.toBits.toNat
  let fraction : Nat := bits % Nat.pow 2 52
  let biased : Nat := bits / Nat.pow 2 52 % Nat.pow 2 11
  if biased = 0 then ⟨fraction, -1074⟩ else ⟨Nat.pow 2 52 + fraction, biased - 1075⟩

namespace Dyadic

/-- Four times the magnitude, over `den`. -/
def num (d : Dyadic) : Nat :=
  4 * d.significand * Nat.pow 2 d.exponent.toNat

def den (d : Dyadic) : Nat :=
  4 * Nat.pow 2 (-d.exponent).toNat

/--
The distance down to the numbers that round to the next smaller double, in quarters of the last place.
It is halved at a power of two, where the doubles below lie twice as dense.
-/
def gapBelow (d : Dyadic) : Nat :=
  if d.significand = Nat.pow 2 52 ∧ -1074 < d.exponent then 1 else 2

/--
Whether `c * 10 ^ e` reads back as `d`. The ends of the interval round to even.
-/
def readsBack (d : Dyadic) (c : Nat) (e : Int) : Bool :=
  let unit := Nat.pow 2 d.exponent.toNat
  let low := (4 * d.significand - d.gapBelow) * unit * Nat.pow 10 (-e).toNat
  let high := (4 * d.significand + 2) * unit * Nat.pow 10 (-e).toNat
  let x := c * Nat.pow 10 e.toNat * d.den
  if d.significand % 2 = 0 then low ≤ x && x ≤ high else low < x && x < high

/--
The `k` with `10 ^ (k - 1) ≤ d < 10 ^ k`, for a positive `d`.
-/
def magnitude (d : Dyadic) : Int :=
  if d.den ≤ d.num then
    (Nat.toDigits 10 (d.num / d.den)).length
  else
    1 - (Nat.toDigits 10 ((d.den - 1) / d.num)).length

/--
The neighbour of `d` on the grid of multiples of `10 ^ e` that reads back, if there is one.
The nearer one wins, and the upper one at equal distance.
-/
def onGrid (d : Dyadic) (e : Int) : Option Scaled :=
  let x := d.num * Nat.pow 10 (-e).toNat
  let unit := d.den * Nat.pow 10 e.toNat
  let below := x / unit
  let above := below + 1
  match d.readsBack below e, d.readsBack above e with
  | true, true => if 2 * (x % unit) < unit then some ⟨below, e⟩ else some ⟨above, e⟩
  | true, false => some ⟨below, e⟩
  | false, true => some ⟨above, e⟩
  | false, false => none

def shortest (d : Dyadic) : Scaled :=
  go 17 (d.magnitude - 1)
where
  go : Nat → Int → Scaled
    | 0, e => ⟨d.num * Nat.pow 10 (-e).toNat / (d.den * Nat.pow 10 e.toNat), e⟩
    | steps + 1, e =>
      match d.onGrid e with
      | some s => s
      | none => go steps (e - 1)

def round (d : Dyadic) (places : Nat) : Nat :=
  let x := d.num * Nat.pow 10 places
  let quotient := x / d.den
  let twice := 2 * (x % d.den)
  if twice < d.den ∨ (twice = d.den ∧ quotient % 2 = 0) then quotient else quotient + 1

end Dyadic
end Decimal
end GradedModal
