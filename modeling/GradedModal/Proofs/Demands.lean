import GradedModal.Proofs.Reaches

/-!
This module contains what checking adds to the predicate. Checking only appends to the part that is being
collected, and what it appends is the same whatever was there before.
-/

namespace GradedModal

open CheckM

namespace Predicate

mutual

/--
The constraints that have to hold, whatever the antecedents of implications say.
-/
def demands : Predicate → List Constraint
  | .atom c => [c]
  | .conj items => demandsAll items
  | .impl _ _ consequent => consequent.demands

def demandsAll : List Predicate → List Constraint
  | [] => []
  | p :: ps => p.demands ++ demandsAll ps

end

theorem demandsAll_append (ps qs : List Predicate)
    : demandsAll (ps ++ qs) = demandsAll ps ++ demandsAll qs := by
  induction ps with
  | nil => rfl
  | cons p ps ih =>
    simp only [List.cons_append, demandsAll, ih, List.append_assoc]

end Predicate

/--
The part of an implication that is being collected.
-/
def Scope.current (s : Scope) : List Predicate :=
  if s.inConsequent then s.consequent else s.antecedent

namespace State

/--
The part of the predicate that is being collected.
-/
def current (s : State) : List Predicate :=
  match s.scopes with
  | [] => s.predicate
  | scope :: _ => scope.current

/--
What was collected between two states.
-/
def added (s s' : State) : List Predicate :=
  s'.current.drop s.current.length

/--
The constraints collected between two states that have to hold, whatever antecedents say.
-/
def demands (s s' : State) : List Constraint :=
  Predicate.demandsAll (s.added s')

def addAll (s : State) (ps : List Predicate) : State :=
  ps.foldl State.add s

/--
Two states differ in nothing but what was appended to the part that is being collected, as far as the
predicate is concerned.
-/
def Extends (s s' : State) : Prop :=
  ∃ ps, s'.predicate = (s.addAll ps).predicate ∧ s'.scopes = (s.addAll ps).scopes

theorem addAll_append (s : State) (ps qs : List Predicate)
    : s.addAll (ps ++ qs) = (s.addAll ps).addAll qs := by
  unfold addAll
  rw [List.foldl_append]

theorem add_congr {s t : State} (hpredicate : s.predicate = t.predicate) (hscopes : s.scopes = t.scopes)
    (p : Predicate)
    : (s.add p).predicate = (t.add p).predicate ∧ (s.add p).scopes = (t.add p).scopes := by
  unfold add
  rw [hscopes]
  cases t.scopes with
  | nil | cons scope scopes => simp [hpredicate]

theorem addAll_congr {s t : State} (hpredicate : s.predicate = t.predicate) (hscopes : s.scopes = t.scopes)
    (ps : List Predicate)
    : (s.addAll ps).predicate = (t.addAll ps).predicate ∧ (s.addAll ps).scopes = (t.addAll ps).scopes := by
  induction ps generalizing s t with
  | nil => exact ⟨hpredicate, hscopes⟩
  | cons p ps ih =>
    obtain ⟨hpredicate, hscopes⟩ := add_congr hpredicate hscopes p
    exact ih hpredicate hscopes

theorem current_congr {s t : State} (hpredicate : s.predicate = t.predicate) (hscopes : s.scopes = t.scopes)
    : s.current = t.current := by
  unfold current
  rw [hpredicate, hscopes]

theorem current_add (s : State) (p : Predicate) : (s.add p).current = s.current ++ [p] := by
  unfold current add
  cases s.scopes with
  | nil => rfl
  | cons scope scopes =>
    obtain ⟨antecedent, consequent, inConsequent⟩ := scope
    cases inConsequent with
    | false => rfl
    | true => rfl

theorem current_addAll (s : State) (ps : List Predicate) : (s.addAll ps).current = s.current ++ ps := by
  induction ps generalizing s with
  | nil => simp [addAll]
  | cons p ps ih =>
    change ((s.add p).addAll ps).current = _
    rw [ih, current_add]
    simp

namespace Extends

theorem trans {s s₁ s₂ : State} (h₁ : s.Extends s₁) (h₂ : s₁.Extends s₂) : s.Extends s₂ := by
  obtain ⟨ps, hpredicate, hscopes⟩ := h₁
  obtain ⟨qs, hpredicate', hscopes'⟩ := h₂
  refine ⟨ps ++ qs, ?_⟩
  rw [addAll_append, hpredicate', hscopes']
  exact addAll_congr hpredicate hscopes qs

theorem current_eq {s s' : State} (h : s.Extends s') : s'.current = s.current ++ s.added s' := by
  obtain ⟨ps, hpredicate, hscopes⟩ := h
  have hcurrent := current_congr hpredicate hscopes
  rw [current_addAll] at hcurrent
  simp [added, hcurrent]

theorem added_append {s s₁ s₂ : State} (h₁ : s.Extends s₁) (h₂ : s₁.Extends s₂)
    : s.added s₂ = s.added s₁ ++ s₁.added s₂ := by
  have h := (h₁.trans h₂).current_eq
  rw [h₂.current_eq, h₁.current_eq, List.append_assoc] at h
  exact (List.append_cancel_left h).symm

theorem demands_append {s s₁ s₂ : State} (h₁ : s.Extends s₁) (h₂ : s₁.Extends s₂)
    : s.demands s₂ = s.demands s₁ ++ s₁.demands s₂ := by
  unfold demands
  rw [added_append h₁ h₂, Predicate.demandsAll_append]

end Extends

theorem extends_of_eq {s s' : State} (hpredicate : s'.predicate = s.predicate) (hscopes : s'.scopes = s.scopes)
    : s.Extends s' :=
  ⟨[], hpredicate, hscopes⟩

theorem extends_add (s : State) (p : Predicate) : s.Extends (s.add p) :=
  ⟨[p], rfl, rfl⟩

theorem added_add (s : State) (p : Predicate) : s.added (s.add p) = [p] := by
  simp [added, current_add]

theorem addAll_scopes_nil {s : State} (h : s.scopes = []) (ps : List Predicate)
    : (s.addAll ps).predicate = s.predicate ++ ps ∧ (s.addAll ps).scopes = [] := by
  induction ps generalizing s with
  | nil => exact ⟨(List.append_nil _).symm, h⟩
  | cons p ps ih =>
    have hadd : (s.add p).predicate = s.predicate ++ [p] ∧ (s.add p).scopes = [] := by
      unfold add
      rw [h]
      exact ⟨rfl, rfl⟩
    have hrest := ih hadd.2
    rw [hadd.1, List.append_assoc] at hrest
    exact hrest

theorem addAll_scopes_cons {s : State} {scope : Scope} {scopes : List Scope} (h : s.scopes = scope :: scopes)
    (ps : List Predicate)
    : (s.addAll ps).predicate = s.predicate ∧ (s.addAll ps).scopes = ps.foldl Scope.add scope :: scopes := by
  induction ps generalizing s scope with
  | nil => exact ⟨rfl, h⟩
  | cons p ps ih =>
    have hadd : (s.add p).predicate = s.predicate ∧ (s.add p).scopes = scope.add p :: scopes := by
      unfold add
      rw [h]
      exact ⟨rfl, rfl⟩
    have hrest := ih hadd.2
    rw [hadd.1] at hrest
    exact hrest

theorem foldl_add_antecedent (antecedent ps : List Predicate)
    : ps.foldl Scope.add ⟨antecedent, [], false⟩ = ⟨antecedent ++ ps, [], false⟩ := by
  induction ps generalizing antecedent with
  | nil => simp
  | cons p ps ih =>
    simp only [List.foldl_cons, Scope.add, Bool.false_eq_true, if_false]
    rw [ih]
    simp

theorem foldl_add_consequent (antecedent consequent ps : List Predicate)
    : ps.foldl Scope.add ⟨antecedent, consequent, true⟩ = ⟨antecedent, consequent ++ ps, true⟩ := by
  induction ps generalizing consequent with
  | nil => simp
  | cons p ps ih =>
    simp only [List.foldl_cons, Scope.add, if_true]
    rw [ih]
    simp

-- An implication that was opened and closed leaves nothing behind but itself.
theorem imply_eq_add {s s₁ s₂ s₃ s₄ s₅ : State} {bound : List (String × Kind)} (hopen : openScope s = .ok () s₁)
    (hantecedent : s₁.Extends s₂) (henter : enterConsequent s₂ = .ok () s₃) (hconsequent : s₃.Extends s₄)
    (hclose : closeScope bound s₄ = .ok () s₅)
    : s₅.predicate = (s.add (.impl bound (.conj (s₁.added s₂)) (.conj (s₃.added s₄)))).predicate ∧
      s₅.scopes = (s.add (.impl bound (.conj (s₁.added s₂)) (.conj (s₃.added s₄)))).scopes := by
  unfold openScope at hopen
  rw [modify_eq_ok] at hopen
  unfold enterConsequent at henter
  rw [modify_eq_ok] at henter
  unfold closeScope at hclose
  rw [modify_eq_ok] at hclose
  have hcurrent₂ := hantecedent.current_eq
  obtain ⟨ps, hpredicate₂, hscopes₂⟩ := hantecedent
  have hcurrent₄ := hconsequent.current_eq
  obtain ⟨qs, hpredicate₄, hscopes₄⟩ := hconsequent
  have hscopes₁ : s₁.scopes = .start :: s.scopes := by
    rw [← hopen]
  have hpredicate₁ : s₁.predicate = s.predicate := by
    rw [← hopen]
  obtain ⟨hp, hs⟩ := addAll_scopes_cons hscopes₁ ps
  rw [hp, hpredicate₁] at hpredicate₂
  unfold Scope.start at hs
  rw [hs, foldl_add_antecedent, List.nil_append] at hscopes₂
  have hadded₂ : s₁.added s₂ = ps := by
    simp only [current, hscopes₁, hscopes₂, Scope.start, Scope.current, Bool.false_eq_true, if_false, List.nil_append]
      at hcurrent₂
    exact hcurrent₂.symm
  rw [hscopes₂] at henter
  have hscopes₃ : s₃.scopes = ⟨ps, [], true⟩ :: s.scopes := by
    rw [← henter]
  have hpredicate₃ : s₃.predicate = s.predicate := by
    rw [← henter]
    exact hpredicate₂
  obtain ⟨hp, hs⟩ := addAll_scopes_cons hscopes₃ qs
  rw [hp, hpredicate₃] at hpredicate₄
  rw [hs, foldl_add_consequent, List.nil_append] at hscopes₄
  have hadded₄ : s₃.added s₄ = qs := by
    simp only [current, hscopes₃, hscopes₄, Scope.current, if_true, List.nil_append] at hcurrent₄
    exact hcurrent₄.symm
  rw [hscopes₄] at hclose
  rw [hadded₂, hadded₄, ← hclose]
  exact add_congr (s := { s₄ with scopes := s.scopes }) hpredicate₄ rfl _

end State

theorem State.Reaches.extends {s s' : State} (h : s.Reaches s') : s.Extends s' := by
  induction h with
  | refl => exact extends_of_eq rfl rfl
  | freshName _ h ih | freshTypeVar _ h ih | bindGradeKind _ _ _ h ih =>
    cases h
    exact ih.trans (extends_of_eq rfl rfl)
  | constrain _ h ih =>
    cases h
    exact ih.trans (extends_add _ _)
  | imply _ hopen _ henter _ hclose ih ih₁ ih₂ =>
    obtain ⟨hpredicate, hscopes⟩ := imply_eq_add hopen ih₁ henter ih₂ hclose
    apply ih.trans
    exact ⟨[_], hpredicate, hscopes⟩

namespace State

theorem demands_constrain {s s' : State} {c : Constraint} (h : constrain c s = .ok () s')
    : s.demands s' = [c] := by
  cases h
  change Predicate.demandsAll (s.added (s.add (.atom c))) = [c]
  rw [added_add]
  rfl

theorem added_imply {s s₁ s₂ s₃ s₄ s₅ : State} {bound : List (String × Kind)} (hopen : openScope s = .ok () s₁)
    (hantecedent : s₁.Reaches s₂) (henter : enterConsequent s₂ = .ok () s₃) (hconsequent : s₃.Reaches s₄)
    (hclose : closeScope bound s₄ = .ok () s₅)
    : s.added s₅ = [.impl bound (.conj (s₁.added s₂)) (.conj (s₃.added s₄))] := by
  obtain ⟨hpredicate, hscopes⟩ :=
    imply_eq_add hopen hantecedent.extends henter hconsequent.extends hclose
  have hcurrent := current_congr hpredicate hscopes
  rw [current_add] at hcurrent
  simp [added, hcurrent]

theorem demands_imply {s s₁ s₂ s₃ s₄ s₅ : State} {bound : List (String × Kind)} (hopen : openScope s = .ok () s₁)
    (hantecedent : s₁.Reaches s₂) (henter : enterConsequent s₂ = .ok () s₃) (hconsequent : s₃.Reaches s₄)
    (hclose : closeScope bound s₄ = .ok () s₅) : s.demands s₅ = s₃.demands s₄ := by
  unfold demands
  rw [added_imply hopen hantecedent henter hconsequent hclose]
  simp [Predicate.demandsAll, Predicate.demands]

/--
All constraints collected between two states have a property, those in antecedents apart.
-/
def AllDemands (K : Constraint → Prop) (s s' : State) : Prop :=
  ∀ c ∈ s.demands s', K c

theorem Reaches.allDemands_iff {K : Constraint → Prop} {s s₁ s₂ : State} (h₁ : s.Reaches s₁) (h₂ : s₁.Reaches s₂)
    : AllDemands K s s₂ ↔ AllDemands K s s₁ ∧ AllDemands K s₁ s₂ := by
  unfold AllDemands
  rw [h₁.extends.demands_append h₂.extends]
  simp only [List.mem_append]
  constructor
  . intro h
    exact ⟨fun c hc => h c (.inl hc), fun c hc => h c (.inr hc)⟩
  . rintro ⟨hleft, hright⟩ c (hc | hc)
    . exact hleft c hc
    . exact hright c hc

theorem AllDemands.between {K : Constraint → Prop} {s s₁ s₂ s₃ : State} (h : AllDemands K s s₃) (h₁ : s.Reaches s₁)
    (h₂ : s₁.Reaches s₂) (h₃ : s₂.Reaches s₃) : AllDemands K s₁ s₂ := by
  have hs₂ := ((h₁.trans h₂).allDemands_iff h₃).mp h
  exact ((h₁.allDemands_iff h₂).mp hs₂.1).2

theorem allDemands_imply {K : Constraint → Prop} {s s₁ s₂ s₃ s₄ s₅ : State} {bound : List (String × Kind)}
    (h : AllDemands K s s₅) (hopen : openScope s = .ok () s₁) (hantecedent : s₁.Reaches s₂)
    (henter : enterConsequent s₂ = .ok () s₃) (hconsequent : s₃.Reaches s₄) (hclose : closeScope bound s₄ = .ok () s₅)
    : AllDemands K s₃ s₄ := by
  unfold AllDemands at h
  rw [demands_imply hopen hantecedent henter hconsequent hclose] at h
  exact h

end State
end GradedModal
