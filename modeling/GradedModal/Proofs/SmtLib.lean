import Mathlib
import GradedModal.Proofs.Reading

/-!
This module says what scripts mean that are read by SMT-LIB's rules, as far as they are about integers. A script asks
whether integers exist that satisfy what has been asserted.
-/

namespace GradedModal
namespace SmtLib

/--
The symbols of the theories of truth values and integers, which scripts cannot declare.
-/
def theorySymbols : List String :=
  ["true", "false", "not", "=>", "and", "or", "xor", "=", "distinct", "ite",
    "-", "+", "*", "div", "mod", "abs", "<=", "<", ">=", ">"]

/--
The words that are symbols only between bars.
-/
def reservedWords : List String :=
  ["!", "_", "as", "exists", "forall", "let", "match", "par", "assert", "check-sat", "declare-const", "get-value"]

/--
A name that a script can declare when it is put between bars.
-/
def IsName (x : String) : Prop :=
  IsQuotableName x ∧ x ∉ theorySymbols

instance (x : String) : Decidable (IsName x) :=
  inferInstanceAs (Decidable (_ ∧ _))

/--
The number that a numeral stands for. Only zero starts with a zero.
-/
def numeral? (t : String) : Option Nat :=
  if toString (Nat.ofDigitChars 10 t.toList 0) = t then some (Nat.ofDigitChars 10 t.toList 0) else none

/--
The symbol that a lexeme stands for. Bars are not a part of it.
-/
def symbol? (t : String) : Option String :=
  match t.toList with
  | '|' :: cs => some (String.ofList cs.dropLast)
  | c :: _ => if c.isDigit || t ∈ reservedWords then none else some t
  | [] => none

/--
A property of integers that are assigned to symbols.
-/
abbrev Condition := (String → Int) → Prop

/--
An expression means an integer or a truth value, depending on the integers that are assigned to symbols.
-/
inductive Meaning where
  | integer (value : (String → Int) → Int)
  | truth (holds : Condition)

namespace Meaning

def condition? : Meaning → Option Condition
  | .integer _ => none
  | .truth p => some p

open Classical in
/--
An operator of the theories, applied to arguments. Conjunctions and disjunctions can have any number of them.
-/
noncomputable def operation? (f : String) (args : List Meaning) : Option Meaning :=
  match f, args with
  | "+", [.integer a, .integer b] => some (.integer fun σ => a σ + b σ)
  | "*", [.integer a, .integer b] => some (.integer fun σ => a σ * b σ)
  | "=", [.integer a, .integer b] => some (.truth fun σ => a σ = b σ)
  | "<=", [.integer a, .integer b] => some (.truth fun σ => a σ ≤ b σ)
  | ">=", [.integer a, .integer b] => some (.truth fun σ => a σ ≥ b σ)
  | "ite", [.truth p, .integer a, .integer b] => some (.integer fun σ => if p σ then a σ else b σ)
  | "not", [.truth p] => some (.truth fun σ => ¬ p σ)
  | "=>", [.truth p, .truth q] => some (.truth fun σ => p σ → q σ)
  | "and", args => (args.mapM condition?).map fun ps => .truth fun σ => ∀ p ∈ ps, p σ
  | "or", args => (args.mapM condition?).map fun ps => .truth fun σ => ∃ p ∈ ps, p σ
  | _, _ => none

end Meaning

def Condition.forAll (xs : List String) (p : Condition) : Condition :=
  match xs with
  | [] => p
  | x :: xs => fun σ => ∀ n, forAll xs p (Function.update σ x n)

def Condition.forSome (xs : List String) (p : Condition) : Condition :=
  match xs with
  | [] => p
  | x :: xs => fun σ => ∃ n, forSome xs p (Function.update σ x n)

/--
The symbol that a binder or a declaration of an integer introduces.
-/
def declared? (t : String) : Option String :=
  (symbol? t).filter fun x => !theorySymbols.contains x

/--
The symbols that a quantifier binds. There is at least one.
-/
def binders? : List SExpr → Option (List String)
  | [.list [.atom t, .atom "Int"]] => (declared? t).map ([·])
  | .list [.atom t, .atom "Int"] :: es => do return (← declared? t) :: (← binders? es)
  | _ => none

mutual

/--
What an expression means in which some symbols stand for integers.
-/
noncomputable def meaning? (scope : List String) : SExpr → Option Meaning
  | .atom t =>
    match numeral? t, symbol? t with
    | some n, _ => some (.integer fun _ => n)
    | none, some x =>
      if x ∈ scope then some (.integer fun σ => σ x)
      else if x = "true" then some (.truth fun _ => True)
      else none
    | none, none => none
  | .list [.atom "forall", .list bs, body] => do
    let xs ← binders? bs
    let p ← (← meaning? (xs ++ scope) body).condition?
    return .truth (.forAll xs p)
  | .list [.atom "exists", .list bs, body] => do
    let xs ← binders? bs
    let p ← (← meaning? (xs ++ scope) body).condition?
    return .truth (.forSome xs p)
  | .list (.atom f :: args) => do Meaning.operation? f (← meanings? scope args)
  | _ => none

noncomputable def meanings? (scope : List String) : List SExpr → Option (List Meaning)
  | [] => some []
  | e :: es => do return (← meaning? scope e) :: (← meanings? scope es)

end

/--
What was said to a solver: the integers that were declared, what was asserted about them, and what was asked, latest
first.
-/
structure Session where
  scope : List String
  asserted : List Condition
  asked : List (List Condition)

namespace Session

def start : Session :=
  ⟨[], [], []⟩

/--
Carry out a command. Integers are declared once, and only declared ones can be asserted or asked about.
-/
noncomputable def execute? (s : Session) : SExpr → Option Session
  | .list [.atom "declare-const", .atom t, .atom "Int"] => do
    let x ← (declared? t).filter fun x => !s.scope.contains x
    return { s with scope := x :: s.scope }
  | .list [.atom "assert", e] => do
    let p ← (← meaning? s.scope e).condition?
    return { s with asserted := p :: s.asserted }
  | .list [.atom "check-sat"] => some { s with asked := s.asserted :: s.asked }
  | .list [.atom "get-value", .list (e :: es)] => (meanings? s.scope (e :: es)).map fun _ => s
  | _ => none

noncomputable def run? (s : Session) (commands : List SExpr) : Option Session :=
  commands.foldlM execute? s

end Session

/--
The questions that a script asks, each with what has been asserted by then.
-/
noncomputable def questions? (text : String) : Option (List (List Condition)) := do
  let s ← Session.start.run? (← read text)
  return s.asked.reverse

/--
What a text says that is a single expression.
-/
noncomputable def statement? (scope : List String) (text : String) : Option Condition := do
  let [e] ← read text | none
  (← meaning? scope e).condition?

def Satisfiable (asserted : List Condition) : Prop :=
  ∃ σ, ∀ p ∈ asserted, p σ

theorem numeral?_toString (n : Nat) : numeral? (toString n) = some n := by
  have hdigits : Nat.ofDigitChars 10 (toString n).toList 0 = n := by
    rw [Nat.toString_eq_ofList_toDigits, String.toList_ofList, Nat.ofDigitChars_ten_toDigits]
  unfold numeral?
  rw [hdigits, if_pos rfl]

theorem numeral?_quoted (x : String) : numeral? ("|" ++ x ++ "|") = none := by
  unfold numeral?
  apply if_neg
  intro h
  have hbar : '|' ∈ ("|" ++ x ++ "|").toList := by simp
  rw [← h, Nat.toString_eq_ofList_toDigits, String.toList_ofList] at hbar
  exact absurd (Nat.isDigit_of_mem_toDigits (by decide) (by decide) hbar) (by decide)

theorem symbol?_quoted (x : String) : symbol? ("|" ++ x ++ "|") = some x := by
  have hchars : ("|" ++ x ++ "|").toList = '|' :: (x.toList ++ ['|']) := by simp
  unfold symbol?
  rw [hchars]
  simp

theorem declared?_quoted {x : String} (h : x ∉ theorySymbols) : declared? ("|" ++ x ++ "|") = some x := by
  unfold declared?
  rw [symbol?_quoted]
  simp [h]

namespace Condition

variable {xs : List String} {p : Condition} {σ : String → Int}

theorem forAll_iff : p.forAll xs σ ↔ ∀ τ, (∀ y, y ∉ xs → τ y = σ y) → p τ := by
  induction xs generalizing σ with
  | nil =>
    constructor
    . intro h τ hτ
      obtain rfl : τ = σ := funext fun y => hτ y List.not_mem_nil
      exact h
    . intro h
      exact h σ fun _ _ => rfl
  | cons x xs ih =>
    simp only [forAll, ih]
    constructor
    . intro h τ hτ
      apply h (τ x)
      intro y hy
      by_cases hyx : y = x
      . rw [hyx, Function.update_self]
      . rw [Function.update_of_ne hyx, hτ y (by simp [hyx, hy])]
    . intro h n τ hτ
      apply h
      intro y hy
      rw [List.mem_cons, not_or] at hy
      rw [hτ y hy.2, Function.update_of_ne hy.1]

theorem forSome_iff : p.forSome xs σ ↔ ∃ τ, (∀ y, y ∉ xs → τ y = σ y) ∧ p τ := by
  have h : ¬ p.forSome xs σ ↔ forAll xs (fun τ => ¬ p τ) σ := by
    induction xs generalizing σ with
    | nil => exact Iff.rfl
    | cons x xs ih => simp only [forSome, forAll, not_exists, ih]
  rw [← not_iff_not, h, forAll_iff]
  simp only [not_exists, not_and]

end Condition

variable {scope : List String}

theorem meaning?_symbol {x : String} (hx : x ∈ scope)
    : meaning? scope (Script.symbol x) = some (.integer fun σ => σ x) := by
  unfold Script.symbol meaning?
  rw [numeral?_quoted, symbol?_quoted]
  simp [hx]

theorem meaning?_numeral (n : Nat) : meaning? scope (.atom (toString n)) = some (.integer fun _ => n) := by
  unfold meaning?
  rw [numeral?_toString]

theorem meaning?_literal {kind : GradeKind} (hkind : kind ≠ .float) (x : Float)
    : meaning? scope (Script.literal kind x) = some (.integer fun _ => x.toUInt64.toNat) := by
  unfold Script.literal
  rw [if_neg hkind]
  exact meaning?_numeral _

theorem meaning?_app {f : String} (hforall : f ≠ "forall") (hexists : f ≠ "exists") (args : List SExpr)
    : meaning? scope (SExpr.app f args) = (meanings? scope args).bind (Meaning.operation? f) := by
  unfold SExpr.app
  rw [meaning?]
  . rfl
  . intro bs body h
    simp_all
  . intro bs body h
    simp_all

theorem meanings?_nil : meanings? scope [] = some [] := by
  rw [meanings?]

theorem meanings?_cons {e : SExpr} {es : List SExpr} {m : Meaning} {ms : List Meaning} (he : meaning? scope e = some m)
    (hes : meanings? scope es = some ms) : meanings? scope (e :: es) = some (m :: ms) := by
  rw [meanings?, he, hes]
  rfl

theorem meaning?_binary {f : String} (hforall : f ≠ "forall") (hexists : f ≠ "exists") {a b : SExpr} {m n : Meaning}
    (ha : meaning? scope a = some m) (hb : meaning? scope b = some n)
    : meaning? scope (SExpr.app f [a, b]) = Meaning.operation? f [m, n] := by
  rw [meaning?_app hforall hexists, meanings?_cons ha (meanings?_cons hb meanings?_nil)]
  rfl

theorem mapM_condition? (ps : List Condition) : (ps.map Meaning.truth).mapM Meaning.condition? = some ps := by
  induction ps with
  | nil => rfl
  | cons p ps ih =>
    rw [List.map_cons, List.mapM_cons, ih]
    rfl

theorem meaning?_and {es : List SExpr} {ps : List Condition} (h : meanings? scope es = some (ps.map .truth))
    : meaning? scope (SExpr.app "and" es) = some (.truth fun σ => ∀ p ∈ ps, p σ) := by
  rw [meaning?_app (by decide) (by decide), h]
  change ((ps.map Meaning.truth).mapM Meaning.condition?).map _ = _
  rw [mapM_condition?]
  rfl

section

variable {a b : SExpr} {m n : (String → Int) → Int} (ha : meaning? scope a = some (.integer m))
variable (hb : meaning? scope b = some (.integer n))

include ha hb

theorem meaning?_add : meaning? scope (SExpr.app "+" [a, b]) = some (.integer fun σ => m σ + n σ) :=
  meaning?_binary (by decide) (by decide) ha hb

theorem meaning?_mul : meaning? scope (SExpr.app "*" [a, b]) = some (.integer fun σ => m σ * n σ) :=
  meaning?_binary (by decide) (by decide) ha hb

theorem meaning?_eq : meaning? scope (SExpr.app "=" [a, b]) = some (.truth fun σ => m σ = n σ) :=
  meaning?_binary (by decide) (by decide) ha hb

theorem meaning?_le : meaning? scope (SExpr.app "<=" [a, b]) = some (.truth fun σ => m σ ≤ n σ) :=
  meaning?_binary (by decide) (by decide) ha hb

theorem meaning?_ge : meaning? scope (SExpr.app ">=" [a, b]) = some (.truth fun σ => m σ ≥ n σ) :=
  meaning?_binary (by decide) (by decide) ha hb

open Classical in
theorem meaning?_ite {c : SExpr} {p : Condition} (hc : meaning? scope c = some (.truth p))
    : meaning? scope (SExpr.app "ite" [c, a, b]) = some (.integer fun σ => if p σ then m σ else n σ) := by
  rw [meaning?_app (by decide) (by decide), meanings?_cons hc (meanings?_cons ha (meanings?_cons hb meanings?_nil))]
  rfl

theorem meaning?_larger : meaning? scope (Script.larger a b) = some (.integer fun σ => max (m σ) (n σ)) := by
  unfold Script.larger
  rw [meaning?_ite ha hb (meaning?_ge ha hb)]
  congr 2
  funext σ
  split <;> omega

theorem meaning?_smaller : meaning? scope (Script.smaller a b) = some (.integer fun σ => min (m σ) (n σ)) := by
  unfold Script.smaller
  rw [meaning?_ite ha hb (meaning?_le ha hb)]
  congr 2
  funext σ
  split <;> omega

end

theorem meaning?_not {e : SExpr} {p : Condition} (he : meaning? scope e = some (.truth p))
    : meaning? scope (SExpr.app "not" [e]) = some (.truth fun σ => ¬ p σ) := by
  rw [meaning?_app (by decide) (by decide), meanings?_cons he meanings?_nil]
  rfl

theorem meaning?_implies {e e' : SExpr} {p q : Condition} (he : meaning? scope e = some (.truth p))
    (he' : meaning? scope e' = some (.truth q))
    : meaning? scope (SExpr.app "=>" [e, e']) = some (.truth fun σ => p σ → q σ) :=
  meaning?_binary (by decide) (by decide) he he'

theorem meaning?_both {e e' : SExpr} {p q : Condition} (he : meaning? scope e = some (.truth p))
    (he' : meaning? scope e' = some (.truth q))
    : meaning? scope (SExpr.app "and" [e, e']) = some (.truth fun σ => p σ ∧ q σ) := by
  rw [meaning?_binary (by decide) (by decide) he he']
  change some (Meaning.truth fun σ => ∀ r ∈ [p, q], r σ) = _
  simp

theorem meaning?_or {e e' : SExpr} {p q : Condition} (he : meaning? scope e = some (.truth p))
    (he' : meaning? scope e' = some (.truth q))
    : meaning? scope (SExpr.app "or" [e, e']) = some (.truth fun σ => p σ ∨ q σ) := by
  rw [meaning?_binary (by decide) (by decide) he he']
  change some (Meaning.truth fun σ => ∃ r ∈ [p, q], r σ) = _
  simp

theorem binders?_binders {vars : List Bound} (hne : vars ≠ []) (hint : ∀ b ∈ vars, b.2 ≠ .float)
    (hnames : ∀ b ∈ vars, b.1 ∉ theorySymbols)
    : binders? (vars.map fun b => .list [Script.symbol b.1, Script.sort b.2]) = some (vars.map (·.1)) := by
  induction vars with
  | nil => exact absurd rfl hne
  | cons b vars ih =>
    rw [List.forall_mem_cons] at hint hnames
    have hsort : Script.sort b.2 = .atom "Int" := by
      simp [Script.sort, hint.1]
    have hname := declared?_quoted hnames.1
    cases vars with
    | nil => simp [binders?, Script.symbol, hsort, hname]
    | cons b' vars =>
      have hrest := ih (List.cons_ne_nil _ _) hint.2 hnames.2
      rw [List.map_cons] at hrest
      rw [List.map_cons, List.map_cons, hsort, Script.symbol, binders?, hrest, hname]
      . rfl
      . simp

section

variable {bs : List SExpr} {body : SExpr} {xs : List String} {p : Condition} (hbs : binders? bs = some xs)
variable (hbody : meaning? (xs ++ scope) body = some (.truth p))

include hbs hbody

theorem meaning?_forAll : meaning? scope (SExpr.app "forall" [.list bs, body]) = some (.truth (p.forAll xs)) := by
  unfold SExpr.app
  rw [meaning?, hbs]
  simp [hbody, Meaning.condition?]

theorem meaning?_forSome : meaning? scope (SExpr.app "exists" [.list bs, body]) = some (.truth (p.forSome xs)) := by
  unfold SExpr.app
  rw [meaning?, hbs]
  simp [hbody, Meaning.condition?]

end

namespace Session

variable {s : Session}

theorem run?_nil : s.run? [] = some s :=
  rfl

theorem run?_cons {t u : Session} {e : SExpr} {es : List SExpr} (he : s.execute? e = some t) (hes : t.run? es = some u)
    : s.run? (e :: es) = some u := by
  unfold run?
  rw [List.foldlM_cons, he]
  exact hes

theorem run?_append {t u : Session} {es es' : List SExpr} (hes : s.run? es = some t) (hes' : t.run? es' = some u)
    : s.run? (es ++ es') = some u := by
  unfold run? at hes
  unfold run?
  rw [List.foldlM_append, hes]
  exact hes'

theorem execute?_declare {x : String} (hx : x ∉ theorySymbols) (hfresh : x ∉ s.scope)
    : s.execute? (SExpr.app "declare-const" [Script.symbol x, .atom "Int"]) =
        some { s with scope := x :: s.scope } := by
  unfold SExpr.app Script.symbol
  rw [execute?, declared?_quoted hx]
  simp [Option.filter, hfresh]

theorem execute?_assert {e : SExpr} {p : Condition} (h : meaning? s.scope e = some (.truth p))
    : s.execute? (SExpr.app "assert" [e]) = some { s with asserted := p :: s.asserted } := by
  unfold SExpr.app
  rw [execute?, h]
  rfl

theorem execute?_checkSat : s.execute? (SExpr.app "check-sat" []) = some { s with asked := s.asserted :: s.asked } :=
  rfl

theorem execute?_getValue {es : List SExpr} {ms : List Meaning} (hne : es ≠ [])
    (h : meanings? s.scope es = some ms) : s.execute? (SExpr.app "get-value" [.list es]) = some s := by
  obtain ⟨e, es, rfl⟩ := List.exists_cons_of_ne_nil hne
  unfold SExpr.app
  rw [execute?, h]
  rfl

end Session

end SmtLib
end GradedModal
