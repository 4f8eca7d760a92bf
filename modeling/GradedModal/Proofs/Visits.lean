import GradedModal.Proofs.Infer
import GradedModal.Typing.Program

/-!
This module contains the states that a check passes through, whether it succeeds or fails. A failure leaves a state
behind too, and so does a part of a check that is undone later.
-/

namespace GradedModal

open CheckM

instance : Std.Refl State.Visits where
  refl _ := .start

instance : Trans State.Visits State.Visits State.Visits where
  trans := .trans

namespace CheckM

/--
The state that a check leaves behind.
-/
def endState {α : Type} (x : CheckM α) (s : State) : State :=
  match x s with
  | .ok _ s' => s'
  | .error _ s' => s'

def Visiting {α : Type} (x : CheckM α) : Prop :=
  ∀ s : State, s.Visits (x.endState s)

variable {α β : Type} {x : CheckM α} {s s' : State}

theorem endState_of_ok {a : α} (h : x s = .ok a s') : x.endState s = s' := by
  unfold endState
  rw [h]

theorem endState_of_error {e : Error} (h : x s = .error e s') : x.endState s = s' := by
  unfold endState
  rw [h]

theorem endState_bind_of_ok {f : α → CheckM β} {a : α} (h : x s = .ok a s')
    : (x >>= f).endState s = (f a).endState s' := by
  unfold endState
  rw [bind_of_ok h]

/--
What is left behind is related to the start, if single steps are and the relation is transitive.
-/
theorem closed_endState {R : State → State → Prop} [Std.Refl R] [Trans R R R]
    : Closed (fun _ x => ∀ s, R s (x.endState s)) where
  pure _ s := Std.Refl.refl s
  throw _ s := Std.Refl.refl s
  get s := Std.Refl.refl s
  bind := by
    intro α β x f hx hf s
    have hs := hx s
    cases h : x s with
    | ok a s₁ =>
      rw [endState_of_ok h] at hs
      rw [endState_bind_of_ok h]
      exact Trans.trans hs (hf a s₁)
    | error e s₁ =>
      rw [endState_of_error h] at hs
      rw [endState_of_error (bind_of_error h)]
      exact hs
  mapError := by
    intro α f x hx s
    have hs := hx s
    unfold endState mapError
    unfold endState at hs
    cases h : x s <;> simpa [h] using hs
  attempt := by
    intro α x hx s
    have hs := hx s
    unfold endState attempt
    unfold endState at hs
    cases h : x s with
    | ok a s₁ => simpa [h] using hs
    | error e s₁ => exact Std.Refl.refl s
  dryRun := by
    intro α x _ s
    unfold endState dryRun
    cases x s <;> exact Std.Refl.refl s

theorem closed_visiting : Closed (fun _ => Visiting) :=
  closed_endState (R := State.Visits)

theorem visiting_unify (pos : Nat) (k l : GradeKind) : Visiting (GradeKind.unify pos k l) := by
  intro s
  unfold endState
  have hunify := GradeKind.unifies_unify pos s k l
  generalize GradeKind.unify pos k l s = r at hunify ⊢
  cases hunify with
  | same | clash => exact .start
  | left | right => exact .bindGradeKind .start rfl

theorem closedQuietly_visiting : ClosedQuietly (fun _ => Visiting) where
  toClosed := closed_visiting
  freshName hint s := by
    have h : freshName hint s = .ok _ _ := rfl
    exact .freshName .start h
  freshTypeVar _ _ _ _ := .freshTypeVar .start rfl
  unify := visiting_unify

end CheckM

section

-- If single constraints and the steps of an implication have a property, so do those that checking is made of.
variable {P : (α : Type) → CheckM α → Prop} (hP : ClosedQuietly P) (hconstrain : ∀ c, P Unit (constrain c))
include hP hconstrain

theorem Unify.vars_closed (pos : Nat) (left right : String) : P Unified (vars pos left right) := by
  unfold vars
  apply hP.bind (hP.typeVar _ _)
  intro l
  apply hP.bind (hP.typeVar _ _)
  intro r
  apply Closed.ite (hP.pure _)
  dsimp only
  split
  . apply hP.bind (hP.unify _ _ _)
    intro kind
    exact hP.bind (hconstrain _) fun _ => hP.pure _
  . exact hP.bind (Kind.discard_unify_closed hP _ _ _) fun _ => hP.pure _

theorem Unify.var_closed (env : Env) (pos : Nat) (name : String) (ty left : Ty)
    : P Unified (var env pos name ty left) := by
  unfold var
  apply hP.bind (hP.typeVar _ _)
  intro v
  apply hP.bind (Ty.inferKind_closed hP _ _ _)
  intro kind
  dsimp only
  split
  . apply hP.bind (hP.unify _ _ _)
    intro k
    split
    . exact hP.bind (hconstrain _) fun _ => hP.pure _
    . exact hP.bind (hP.fail _ _) fun _ => hP.pure _
  . apply Closed.ite
    . exact hP.bind (hP.fail _ _) fun _ => hP.pure _
    . exact hP.bind (Kind.discard_unify_closed hP _ _ _) fun _ => hP.pure _

theorem Unify.indices_closed (env : Env) (pos : Nat) (left right : Ty) : P Unified (indices env pos left right) := by
  unfold indices
  apply hP.bind (Ty.inferKind_closed hP _ _ _)
  intro k
  apply hP.bind (Ty.inferKind_closed hP _ _ _)
  intro l
  split
  . apply hP.bind (hP.unify _ _ _)
    intro kind
    exact hP.bind (hconstrain _) fun _ => hP.pure _
  . exact hP.fail _ _

theorem Ty.joinVars_closed {env : Env} {pos : Nat} {left right : String}
    (hequality : P Ty (Ty.joinByEquality env pos (.var left) (.var right)))
    : P Ty (Ty.join env pos (.var left) (.var right)) := by
  unfold Ty.join
  apply Closed.ite hequality
  apply hP.bind (hP.typeVar _ _)
  intro l
  apply hP.bind (hP.typeVar _ _)
  intro r
  split
  . apply hP.bind (hP.unify _ _ _)
    intro kind
    exact hP.bind (hconstrain _) fun _ => hP.pure _
  . exact hequality

theorem Expr.boxDemand_closed (pos : Nat) (kind : GradeKind) (grade : Grade) (used : Option Assumption)
    : P Grade (boxDemand pos kind grade used) := by
  unfold boxDemand
  split
  . exact hP.pure _
  . exact hP.pure _
  . exact hP.bind (hconstrain _) fun _ => hP.pure _

theorem CheckM.ClosedQuietly.throughout (hopen : P Unit openScope) (henter : P Unit enterConsequent)
    (hclose : ∀ bound, P Unit (closeScope bound)) : ClosedThroughout P := { hP with
  compare := fun _ _ _ _ => hP.bind (Context.commonKind_closed hP _ _ _) fun _ => hconstrain _
  bound := fun hf =>
    hP.bind (Context.commonKind_closed hP _ _ _) fun _ =>
      hP.bind (hP.freshGrade _ _) fun _ => hP.bind (hconstrain _) fun _ => hP.bind (hconstrain _) fun _ => hf _
  vars := Unify.vars_closed hP hconstrain
  var := Unify.var_closed hP hconstrain
  indices := Unify.indices_closed hP hconstrain
  joinVars := Ty.joinVars_closed hP hconstrain
  successor := fun hf =>
    hP.bind (hP.freshTypeVar _ _ _) fun _ =>
      hP.bind (hP.freshTypeVar _ _ _) fun _ => hP.bind (hconstrain _) fun _ => hf _ _
  unbox := fun hx hf =>
    hP.bind (hP.freshGradeKind _) fun _ =>
      hP.bind (hP.freshGrade _ _) fun _ =>
        hP.bind (hx _) fun _ => hP.bind (Expr.boxDemand_closed hP hconstrain _ _ _ _) fun _ => hf _ _
  imply := fun hx hy =>
    hP.bind hopen fun _ =>
      hP.bind hx fun _ =>
        hP.bind henter fun _ => hP.bind (hy _) fun _ => hP.bind (hclose _) fun _ => hP.pure _ }

end

theorem CheckM.closedThroughout_visiting : ClosedThroughout (fun _ => Visiting) :=
  closedQuietly_visiting.throughout (fun _ _ => .constrain .start rfl) (fun _ => .openScope .start rfl)
    (fun _ => .enterConsequent .start rfl) fun _ _ => .closeScope .start rfl

namespace Definition

theorem bindPatterns_visiting (env : Env) (ps : List Pattern) (tys : List Ty) (matched : Matched)
    : Visiting (bindPatterns env ps tys matched) := by
  induction ps generalizing tys matched with
  | nil => exact closed_visiting.pure _
  | cons p ps ih =>
    cases tys with
    | nil => exact closed_visiting.pure _
    | cons ty tys =>
      unfold bindPatterns
      apply closed_visiting.bind (Pattern.matchTy_closed closedThroughout_visiting _ _ _)
      intro arg
      exact closed_visiting.bind (Matched.merge_closed closedThroughout_visiting _ _ _ _) fun _ => ih _ _

theorem bindParameters_visiting (env : Env) (d : Definition) : Visiting (d.bindParameters env) := by
  unfold bindParameters
  apply closed_visiting.guard
  exact closed_visiting.bind (bindPatterns_visiting _ _ _ _) fun _ => closed_visiting.pure _

theorem check_visits (env : Env) (d : Definition) {s s₁ : State} (h : bindUniversals d.scheme.vars s = .ok () s₁)
    : s₁.Visits ((d.check env).endState s) := by
  have hrest : (d.check env).endState s = _ := endState_bind_of_ok h
  rw [hrest]
  refine closed_visiting.bind (fun _ => .openScope .start rfl) ?_ s₁
  intro _
  apply closed_visiting.bind (bindParameters_visiting _ _)
  rintro ⟨matched, expected⟩
  apply closed_visiting.bind fun _ => .enterConsequent .start rfl
  intro _
  apply closed_visiting.bind
  . exact closed_visiting.bind (Expr.infer_closed closedThroughout_visiting _ _ _ _ _) fun _ => closed_visiting.pure _
  . rintro ⟨used, subst⟩
    apply closed_visiting.guard
    exact closed_visiting.bind (Context.le_closed closedThroughout_visiting _ _ _) fun _ _ => .closeScope .start rfl

end Definition
end GradedModal
