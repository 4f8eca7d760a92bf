import GradedModal.Typing.Program
import GradedModal.Proofs.Validity

/-!
This module says when a program is accepted, given a prover that knows what is true: the definitions have to be well
typed, and the formulas that remain have to be true.
-/

namespace GradedModal

/--
A prover that finds predicates valid if and only if they are true.
-/
def Prover.IsExact {σ : Type} (prover : Prover σ) : Prop :=
  ∀ p vars st, ((prover p vars).run st).run.1 = .valid ↔ (p.compile vars).formula.IsTrue .standard []

open Classical in
/--
The prover that knows what is true.
-/
noncomputable def Prover.oracle : Prover Unit :=
  fun p vars => return if (p.compile vars).formula.IsTrue .standard [] then .valid else .invalid []

theorem Prover.isExact_oracle : Prover.oracle.IsExact := by
  intro p vars st
  unfold oracle
  by_cases h : (p.compile vars).formula.IsTrue .standard []
  . simp [h]
  . simp [h]

theorem Obligation.discharge_eq_ok_iff {σ : Type} {prover : Prover σ} (hprover : prover.IsExact) (o : Obligation) (st : σ)
    : ((o.discharge prover).run st).run.1 = .ok ()
        ↔
      (o.predicate.compile o.vars).formula.IsTrue .standard [] := by
  unfold discharge
  split
  . next htrivial => exact ⟨fun _ => Predicate.isTrue_of_isTrivial htrivial _, fun _ => rfl⟩
  . rw [← hprover o.predicate o.vars st]
    change o.settle ((prover o.predicate o.vars).run st).run.1 = .ok () ↔ _
    cases ((prover o.predicate o.vars).run st).run.1 with
    | valid => simp [settle]
    | invalid a => simp [settle]
    | undecided doubt => simp [settle]

namespace Program

/-- A program of one definition is accepted. -/
def Accepts {σ : Type} (builtins : Builtins) (prover : Prover σ) (detailed : Bool) (st : σ) (d : Definition) : Prop :=
  ((check builtins prover detailed [d]).run st).run.1.result = .ok ()

theorem accepts_iff {σ : Type} {builtins : Builtins} {prover : Prover σ} {detailed : Bool} {st : σ} {d : Definition}
    (hprover : prover.IsExact)
    : Accepts builtins prover detailed st d
        ↔
      ∃ s s', checkSignatures ⟨builtins, signatures [d]⟩ [d] .start = .ok () s ∧
        d.check ⟨builtins, signatures [d]⟩ s.reset = .ok () s' ∧
        ((s'.collected.mapKinds s'.settle).compile s'.gradeVars).formula.IsTrue .standard [] := by
  unfold Accepts check
  dsimp only
  cases hsignatures : checkSignatures ⟨builtins, signatures [d]⟩ [d] .start with
  | error e s =>
    constructor
    . intro h
      cases h
    . rintro ⟨_, _, h, _⟩
      cases h
  | ok _ s =>
    dsimp only
    unfold checkBodies
    cases hcheck : d.check ⟨builtins, signatures [d]⟩ s.reset with
    | error e s' =>
      constructor
      . intro h
        cases h
      . rintro ⟨_, _, h, h', _⟩
        cases h
        rw [hcheck] at h'
        cases h'
    | ok _ s' =>
      have hdischarge := Obligation.discharge_eq_ok_iff hprover (s'.obligation d.binder.name d.binder.pos) st
      dsimp only
      rw [StateT.run_bind]
      constructor
      . intro h
        refine ⟨s, s', rfl, hcheck, hdischarge.mp ?_⟩
        generalize StateT.run ((s'.obligation d.binder.name d.binder.pos).discharge prover) st = r at h ⊢
        obtain ⟨result, st'⟩ := r
        cases result with
        | error e => cases h
        | ok _ => rfl
      . rintro ⟨_, t, h, h', htrue⟩
        cases h
        rw [hcheck] at h'
        cases h'
        have hok := hdischarge.mpr htrue
        generalize StateT.run ((s'.obligation d.binder.name d.binder.pos).discharge prover) st = r at hok ⊢
        obtain ⟨result, st'⟩ := r
        cases result with
        | error e => cases hok
        | ok _ => rfl

end Program

namespace Predicate

mutual

def Holds : Predicate → Prop
  | .atom c => c.holds [] = .ok true
  | .conj items => AllHold items
  | .impl _ antecedent consequent => antecedent.Holds → consequent.Holds

def AllHold : List Predicate → Prop
  | [] => True
  | p :: ps => p.Holds ∧ AllHold ps

end

mutual

-- Without variables there is nothing to quantify.
theorem isTrue_quantify_nil (p : Predicate) : (p.quantify [] []).IsTrue .standard [] ↔ p.Holds := by
  cases p with
  | atom c => exact Iff.rfl
  | conj items =>
    unfold quantify
    rw [Formula.isTrue_mkForSome]
    exact allTrue_quantifyAll_nil items
  | impl bound antecedent consequent =>
    have hbound : ∀ names, bindAll [] names = [] := by
      intro names
      simp [bindAll]
    unfold quantify
    rw [Formula.isTrue_mkForSome, hbound, hbound]
    exact imp_congr (isTrue_quantify_nil antecedent) (isTrue_quantify_nil consequent)

theorem allTrue_quantifyAll_nil (ps : List Predicate)
    : Formula.AllTrue .standard (quantifyAll [] ps []) [] ↔ AllHold ps := by
  cases ps with
  | nil => exact Iff.rfl
  | cons p ps => exact and_congr (isTrue_quantify_nil p) (allTrue_quantifyAll_nil ps)

end

theorem compile_closed {p : Predicate} (hp : ∀ c ∈ p.constraints, c.vars = []) (vars : List GradeVar)
    : p.compile vars = ⟨[], p.quantify [] []⟩ := by
  have hmentioned : p.mentionedVars vars = [] := by
    unfold mentionedVars
    generalize p.constraints = cs at hp
    induction cs with
    | nil => rfl
    | cons c cs ih =>
      rw [List.forall_mem_cons] at hp
      rw [List.foldl_cons, hp.1]
      exact ih hp.2
  unfold compile
  rw [hmentioned]
  rfl

theorem isTrue_compile_closed {p : Predicate} (hp : ∀ c ∈ p.constraints, c.vars = []) (vars : List GradeVar)
    : (p.compile vars).formula.IsTrue .standard [] ↔ p.Holds := by
  rw [compile_closed hp]
  exact isTrue_quantify_nil p

end Predicate
end GradedModal
