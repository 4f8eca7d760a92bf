/-!
This module contains the security lattice.
-/

namespace GradedModal

inductive Level where
  | unused
  | visible
  | secret
  deriving DecidableEq, Repr, Inhabited

namespace Level

def rank : Level → Nat
  | .unused => 0
  | .visible => 1
  | .secret => 2

instance : LE Level where
  le a b := a.rank ≤ b.rank

instance (a b : Level) : Decidable (a ≤ b) :=
  inferInstanceAs (Decidable (a.rank ≤ b.rank))

instance : Max Level where
  max a b := if a ≤ b then b else a

instance : Min Level where
  min a b := if a ≤ b then a else b

def zero : Level := .unused

def one : Level := .visible

def plus (a b : Level) : Level :=
  max a b

/--
Scaling keeps the more secret level, and what is unused stays so.
-/
def times (a b : Level) : Level :=
  if a = .unused ∨ b = .unused then .unused else max a b

def render : Level → String
  | .unused => "Unused"
  | .visible => "Public"
  | .secret => "Private"

end Level
end GradedModal
