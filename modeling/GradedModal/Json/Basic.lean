import GradedModal.Decimal.Text

/-!
This module contains JSON values and the readings of a JSON number as a word, an integer or a double.
-/

namespace GradedModal

def maxWord : Nat := Nat.pow 2 64 - 1

namespace Json

/--
A number as it is written: `± significand * 10 ^ exponent`. It is `whole` if it has neither a fraction
nor an exponent part; its exponent is then zero.
-/
structure Number where
  negative : Bool
  significand : Nat
  exponent : Int
  whole : Bool
  deriving DecidableEq, Repr

namespace Number

def ofNat (n : Nat) : Number :=
  ⟨false, n, 0, true⟩

def ofInt (n : Int) : Number :=
  ⟨n < 0, n.natAbs, 0, true⟩

def word? (n : Number) : Option Nat :=
  if n.whole && !n.negative && n.significand ≤ maxWord then some n.significand else none

/-- The signed word that a number denotes. Minus zero is a fraction. -/
def signed? (n : Number) : Option Int :=
  if !n.whole then
    none
  else if n.negative then
    if 0 < n.significand ∧ n.significand ≤ Nat.pow 2 63 then some (-(n.significand : Int)) else none
  else if n.significand < Nat.pow 2 63 then
    some n.significand
  else
    none

def float? (n : Number) : Option Float :=
  let x := Decimal.nearest ⟨n.significand, n.exponent⟩
  if x.isInf then none else some (if n.negative then -x else x)

end Number
end Json

/--
A JSON value. An object keeps its members in the order in which they are written. What is `unreadable`
has the form of a value but cannot be used as one; it may stand where nothing reads it.
-/
inductive Json where
  | null
  | bool (b : Bool)
  | num (n : Json.Number)
  | str (s : String)
  | arr (items : List Json)
  | obj (members : List (String × Json))
  | unreadable
  deriving Repr

namespace Json

def ofNat (n : Nat) : Json :=
  .num (.ofNat n)

def ofInt (n : Int) : Json :=
  .num (.ofInt n)

def str? : Json → Option String
  | .str s => some s
  | _ => none

def bool? : Json → Option Bool
  | .bool b => some b
  | _ => none

def word? : Json → Option Nat
  | .num n => n.word?
  | _ => none

def signed? : Json → Option Int
  | .num n => n.signed?
  | _ => none

def float? : Json → Option Float
  | .num n => n.float?
  | _ => none

def isArray : Json → Bool
  | .arr _ => true
  | _ => false

def arr? : Json → Option (List Json)
  | .arr items => some items
  | _ => none

def list? {α : Type} (f : Json → Option α) : Json → Option (List α)
  | .arr items => items.mapM f
  | _ => none

def pair? {α β : Type} (f : Json → Option α) (g : Json → Option β) : Json → Option (α × β)
  | .arr [a, b] => do return (← f a, ← g b)
  | _ => none

/--
The last member of an object with the given name.
-/
def get? (j : Json) (name : String) : Option Json :=
  match j with
  | .obj members => members.foldl (fun found (key, value) => if key = name then some value else found) none
  | _ => none

def member? (name : String) (members : List (String × Json)) : Option (Option { v : Json // ∃ m ∈ members, m.2 = v }) :=
  match h : members.filter (·.1 = name) with
  | [] => some none
  | [m] => some (some ⟨m.2, m, (List.mem_filter.1 (h ▸ List.mem_singleton_self m)).1, rfl⟩)
  | _ => none

/--
The values of the named members of a record, in the order of `names`. A record is an object, in which
unknown members are ignored and no named member occurs twice, or an array that lists all values.
-/
def record? (names : List String) (j : Json) : Option (List (Option { v : Json // sizeOf v < sizeOf j })) :=
  match j with
  | .arr items =>
    if items.length = names.length then
      some <| items.attach.map fun ⟨v, h⟩ => some ⟨v, by
        have := List.sizeOf_lt_of_mem h
        simp
        omega⟩
    else
      none
  | .obj members =>
    names.mapM fun name => do
      let found ← member? name members
      return found.map fun ⟨v, h⟩ => ⟨v, by
        obtain ⟨m, hm, rfl⟩ := h
        have := List.sizeOf_lt_of_mem hm
        cases m
        simp at *
        omega⟩
  | _ => none

def fields? (listed : Bool) (names : List String) (j : Json) :
    Option (List (Option { v : Json // sizeOf v < sizeOf j })) :=
  if j.isArray && !listed then none else j.record? names

end Json
end GradedModal
