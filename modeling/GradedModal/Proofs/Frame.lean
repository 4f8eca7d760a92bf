import Mathlib
import GradedModal.Proofs.Demands
import GradedModal.Proofs.Infer
import GradedModal.Proofs.KindSolutions

/-!
This module says what checking leaves alone. It appends to the part of the predicate that is being collected, brings new
variables into scope and makes up new names; everything else about the state stays as it is, and kinds that were found
to be the same stay the same.
-/

namespace GradedModal

open CheckM

/--
The part of an implication that is being collected got longer, and the other one stayed as it is.
-/
structure Scope.Grows (scope scope' : Scope) : Prop where
  phase : scope'.inConsequent = scope.inConsequent
  antecedent : if scope.inConsequent then scope'.antecedent = scope.antecedent
    else scope.antecedent <+: scope'.antecedent
  consequent : if scope.inConsequent then scope.consequent <+: scope'.consequent
    else scope'.consequent = scope.consequent

/--
The predicate got longer if no implication is open, and otherwise the innermost one that is open did.
-/
inductive State.GrowsInnermost (s s' : State) : Prop where
  | predicate : s.scopes = [] → s'.scopes = [] → s.predicate <+: s'.predicate → GrowsInnermost s s'
  | scope {scope scope' : Scope} {outer : List Scope} : s.scopes = scope :: outer → s'.scopes = scope' :: outer →
    s'.predicate = s.predicate → scope.Grows scope' → GrowsInnermost s s'

/--
A state differs from a later one in nothing but what checking appends.
-/
structure State.Grows (s s' : State) : Prop where
  innermost : s.GrowsInnermost s'
  phases : s'.scopes.map (·.inConsequent) = s.scopes.map (·.inConsequent)
  /-- The variables in scope are listed latest first. -/
  typeVars : s.typeVars <:+ s'.typeVars
  nextFresh : s.nextFresh ≤ s'.nextFresh
  /-- On a cycle of kinds, resolving does not come to an end. -/
  kinds : ∀ k l, s'.IsResolved (s'.resolve k) → s'.IsResolved (s'.resolve l) → s.resolve k = s.resolve l →
    s'.resolve k = s'.resolve l
  acyclic : s.IsAcyclic → s'.IsAcyclic

namespace Scope.Grows

variable {scope scope₁ scope₂ : Scope}

theorem refl : scope.Grows scope where
  phase := rfl
  antecedent := by
    split
    . rfl
    . exact List.prefix_rfl
  consequent := by
    split
    . exact List.prefix_rfl
    . rfl

theorem add (h : scope.Grows scope₁) (p : Predicate) : scope.Grows (scope₁.add p) := by
  obtain ⟨antecedent, consequent, inConsequent⟩ := scope
  obtain ⟨antecedent₁, consequent₁, inConsequent₁⟩ := scope₁
  obtain ⟨hphase, hantecedent, hconsequent⟩ := h
  obtain rfl : inConsequent₁ = inConsequent := hphase
  cases inConsequent₁ with
  | false => exact ⟨rfl, hantecedent.trans (List.prefix_append _ _), hconsequent⟩
  | true => exact ⟨rfl, hantecedent, hconsequent.trans (List.prefix_append _ _)⟩

theorem foldl_add (h : scope.Grows scope₁) (ps : List Predicate) : scope.Grows (ps.foldl Scope.add scope₁) := by
  induction ps generalizing scope₁ with
  | nil => exact h
  | cons p ps ih => exact ih (h.add p)

end Scope.Grows

namespace State

variable {s s' : State}

theorem Extends.growsInnermost (h : s.Extends s') : s.GrowsInnermost s' := by
  obtain ⟨ps, hpredicate, hscopes⟩ := h
  cases hs : s.scopes with
  | nil =>
    obtain ⟨hp, hnil⟩ := addAll_scopes_nil hs ps
    refine .predicate hs (hscopes.trans hnil) ?_
    rw [hpredicate, hp]
    exact List.prefix_append _ _
  | cons scope outer =>
    obtain ⟨hp, hcons⟩ := addAll_scopes_cons hs ps
    exact .scope hs (hscopes.trans hcons) (hpredicate.trans hp) (Scope.Grows.refl.foldl_add ps)

theorem GrowsInnermost.phases (h : s.GrowsInnermost s')
    : s'.scopes.map (·.inConsequent) = s.scopes.map (·.inConsequent) := by
  cases h with
  | predicate hs hs' _ => rw [hs, hs']
  | scope hs hs' _ hgrows => rw [hs, hs', List.map_cons, List.map_cons, hgrows.phase]

theorem Reaches.typeVars_suffix (h : s.Reaches s') : s.typeVars <:+ s'.typeVars := by
  apply h.visits.induct (motive := fun t => s.typeVars <:+ t.typeVars) List.suffix_rfl
  . intro t t' htypeVars _ ht
    rw [htypeVars]
    exact ht
  . intro t ht
    exact ht
  . intro t hint kind quantifier ht
    exact ht.trans (List.suffix_cons _ _)

theorem Reaches.nextFresh_le (h : s.Reaches s') : s.nextFresh ≤ s'.nextFresh := by
  apply h.visits.induct (motive := fun t => s.nextFresh ≤ t.nextFresh) (Nat.le_refl _)
  . intro t t' _ hnextFresh ht
    rw [hnextFresh]
    exact ht
  . intro t ht
    exact Nat.le_succ_of_le ht
  . intro t hint kind quantifier ht
    exact Nat.le_succ_of_le ht

theorem Reaches.grows (h : s.Reaches s') : s.Grows s' where
  innermost := h.extends.growsInnermost
  phases := h.extends.growsInnermost.phases
  typeVars := h.typeVars_suffix
  nextFresh := h.nextFresh_le
  kinds _ _ hk hl heq := h.resolve_eq heq hk hl
  acyclic hs := hs.of_reaches h

end State

/--
Whether an expression is checked or its type is synthesized, the state only grows where it is being collected.
-/
theorem checking_grows_innermost (env : Env) (c : Context) (polarity : Polarity) (e : Expr) (s : State)
    : (∀ topLevel expected result s', e.check env c polarity topLevel expected s = .ok result s' → s.Grows s') ∧
      (∀ result s', e.synthesize env c polarity s = .ok result s' → s.Grows s') := by
  constructor
  . intro topLevel expected result s' h
    obtain ⟨r, hinfer, _⟩ := Expr.check_eq_ok h
    exact (Expr.infer_reaching _ _ _ _ _ hinfer).grows
  . intro result s' h
    obtain ⟨r, hinfer, _⟩ := Expr.synthesize_eq_ok h
    exact (Expr.infer_reaching _ _ _ _ _ hinfer).grows

/-- The antecedent of an implication is being collected, inside of the consequent of another one. -/
def State.nested : State :=
  ⟨[], [⟨[.conj []], [], false⟩, ⟨[], [.conj []], true⟩], [⟨"n", .grade .nat, .universal⟩], [], 3⟩

/-- Take a list apart and put it together again. -/
def Expr.relist : Expr :=
  .case 0 (.var 0 "v")
    [(.constructor 0 "Nil" [], .constructor 0 "Nil"),
      (.constructor 0 "Cons" [.var 0 "x", .var 0 "xs"],
        .app 0 (.app 0 (.constructor 0 "Cons") (.var 0 "x")) (.var 0 "xs"))]

theorem checking_grows_innermost_nested
    : ∃ result s', Expr.relist.check ⟨.standard, []⟩ ⟨[("v", .linear (.list (.var "n") (.const "Int")))]⟩ .positive false
        (.list (.var "n") (.const "Int")) .nested = .ok result s' ∧
      s'.scopes.length = 2 ∧ s'.nextFresh = 10 ∧ State.nested.Grows s' := by
  have hcheck : yields (Expr.relist.check ⟨.standard, []⟩ ⟨[("v", .linear (.list (.var "n") (.const "Int")))]⟩ .positive
      false (.list (.var "n") (.const "Int"))) .nested (fun _ s' => s'.scopes.length = 2 ∧ s'.nextFresh = 10) = true := by
    cbv
  obtain ⟨result, s', h, hs'⟩ := exists_of_yields hcheck
  rw [decide_eq_true_eq] at hs'
  exact ⟨result, s', h, hs'.1, hs'.2, (checking_grows_innermost _ _ _ _ _).1 _ _ _ _ h⟩

end GradedModal
