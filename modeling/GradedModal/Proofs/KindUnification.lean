import GradedModal.Proofs.KindSolutions
import GradedModal.Proofs.Visits

/-!
This module says that what is known about kinds is a union-find. Whatever kinds were inferred and unified before, and
whether or not this succeeded, following what is known comes to an end. Unifying two kinds then merges what is resolved
to the one with what is resolved to the other, and learns nothing that they do not need to be equal.
-/

namespace GradedModal

open CheckM

namespace State

variable {s s' : State} {k l kind : GradeKind} {name : String} {pos : Nat}

theorem isAcyclic_start : start.IsAcyclic :=
  fun _ _ _ => rfl

theorem IsAcyclic.exists_iterate (hs : s.IsAcyclic) (kind : GradeKind)
    : ∃ n, s.IsResolved (s.follow^[n] kind) ∧ s.resolve kind = s.follow^[n] kind := by
  have hresolve : s.resolve kind = s.follow^[s.kinds.length] kind := s.go_eq_iterate _ kind
  refine ⟨s.kinds.length, ?_, hresolve⟩
  rw [← hresolve]
  exact hs kind

theorem IsAcyclic.resolve_learn_ne_iff (hs : s.IsAcyclic) (hk : s.resolve k = .var name)
    (hl : s.resolve l ≠ .var name) (m : GradeKind)
    : (s.learn name (s.resolve l)).resolve m ≠ s.resolve m ↔ s.resolve m = .var name := by
  rw [hs.resolve_learn (hs k name hk) ((hs l).learn hl _)]
  split
  . next hm => simp [hm, hl]
  . next hm => simp [hm]

/--
What holds after two kinds were unified with a result.
-/
structure Merged (s : State) (k l kind : GradeKind) (s' : State) : Prop where
  left : s'.resolve k = kind
  right : s'.resolve l = kind
  /-- At most one kind is bound, which was not determined, and what is resolved to it changes, but nothing else. -/
  changed : (s.resolve k = s.resolve l ∧ s' = s) ∨ ∃ name, (s.resolve k = .var name ∨ s.resolve l = .var name) ∧
    s.kinds.lookup name = none ∧ s' = s.learn name kind ∧ ∀ m, s'.resolve m ≠ s.resolve m ↔ s.resolve m = .var name
  mostGeneral : ∀ θ, s'.Solves θ ↔ s.Solves θ ∧ k.under θ = l.under θ

theorem IsAcyclic.merged (hs : s.IsAcyclic) (h : GradeKind.unify pos k l s = .ok kind s') : s.Merged k l kind s' where
  left := (GradeKind.resolve_unify_eq hs h).1
  right := (GradeKind.resolve_unify_eq hs h).2
  changed := by
    cases GradeKind.unify_eq_ok h with
    | same heq => exact .inl ⟨heq, rfl⟩
    | left hk hl => exact .inr ⟨_, .inl hk, hs k _ hk, rfl, hs.resolve_learn_ne_iff hk hl⟩
    | right hk hl => exact .inr ⟨_, .inr hl, hs l _ hl, rfl, hs.resolve_learn_ne_iff hl (hk _)⟩
  mostGeneral θ := (GradeKind.solves_unify_iff θ h).1

end State

theorem GradeKind.unify_eq_error_iff {s s' : State} {k l : GradeKind} {pos : Nat} {e : Error}
    : GradeKind.unify pos k l s = .error e s' ↔
        ((∀ x, s.resolve k ≠ .var x) ∧ (∀ x, s.resolve l ≠ .var x) ∧ s.resolve k ≠ s.resolve l) ∧
        e = .ofCause pos (.gradeKindMismatch (s.resolve k) (s.resolve l)) ∧ s' = s := by
  have hunify := unifies_unify pos s k l
  generalize GradeKind.unify pos k l s = r at hunify ⊢
  cases hunify with
  | same heq => simp [heq]
  | left hk _ => simp [hk]
  | right _ hl => simp [hl]
  | clash hk hl hne =>
    rw [EStateM.Result.error.injEq]
    exact ⟨fun h => ⟨⟨hk, hl, hne⟩, h.1.symm, h.2.symm⟩, fun h => ⟨h.2.1.symm, h.2.2.symm⟩⟩

/--
The calls by which kinds are inferred and unified, and new variables between them.
-/
inductive KindCall where
  | bindTypeVar (name : String) (kind : Kind) (quantifier : Quantifier)
  | unifyGradeKinds (pos : Nat) (expected actual : GradeKind)
  | inferGradeKind (pos : Nat) (g : Grade)
  | unifyKinds (pos : Nat) (expected actual : Kind)
  | inferKind (env : Env) (pos : Nat) (ty : Ty)

namespace KindCall

/--
The state that a call leaves behind, whether it succeeds or fails.
-/
def run (s : State) : KindCall → State
  | .bindTypeVar name kind quantifier => (CheckM.bindTypeVar name kind quantifier).endState s
  | .unifyGradeKinds pos expected actual => (GradeKind.unify pos expected actual).endState s
  | .inferGradeKind pos g => (g.inferKind pos).endState s
  | .unifyKinds pos expected actual => (Kind.unify pos expected actual).endState s
  | .inferKind env pos ty => (ty.inferKind env pos).endState s

def runAll (s : State) (calls : List KindCall) : State :=
  calls.foldl run s

end KindCall

def State.KeepsAcyclic (s s' : State) : Prop :=
  s.IsAcyclic → s'.IsAcyclic

instance : Std.Refl State.KeepsAcyclic where
  refl _ := id

instance : Trans State.KeepsAcyclic State.KeepsAcyclic State.KeepsAcyclic where
  trans h₁ h₂ := h₂ ∘ h₁

-- The checks succeed or fail in many places, but all that they learn they learn by unifying two kinds of grades.
theorem CheckM.closedQuietly_keepsAcyclic : ClosedQuietly (fun _ x => ∀ s : State, s.KeepsAcyclic (x.endState s)) where
  toClosed := closed_endState
  freshName _ _ hs := hs.congr rfl
  freshTypeVar _ _ _ _ hs := hs.congr rfl
  unify pos k l s hs := by
    unfold endState
    have hunify := GradeKind.unifies_unify pos s k l
    generalize GradeKind.unify pos k l s = r at hunify ⊢
    cases hunify with
    | same | clash => exact hs
    | left hk hl => exact hs.of_reaches (State.ReachesQuietly.learn hk hl).reaches
    | right hk hl => exact hs.of_reaches (State.ReachesQuietly.learn hl (hk _)).reaches

namespace KindCall

theorem isAcyclic_run {s : State} (hs : s.IsAcyclic) (call : KindCall) : (run s call).IsAcyclic := by
  cases call with
  | bindTypeVar => exact hs.congr rfl
  | unifyGradeKinds pos k l => exact closedQuietly_keepsAcyclic.unify pos k l s hs
  | inferGradeKind pos g => exact Grade.inferKind_closed closedQuietly_keepsAcyclic pos g s hs
  | unifyKinds pos k l => exact Kind.unify_closed closedQuietly_keepsAcyclic pos k l s hs
  | inferKind env pos ty => exact Ty.inferKind_closed closedQuietly_keepsAcyclic env pos ty s hs

theorem isAcyclic_runAll {s : State} (hs : s.IsAcyclic) (calls : List KindCall) : (runAll s calls).IsAcyclic := by
  induction calls generalizing s with
  | nil => exact hs
  | cons call calls ih => exact ih (isAcyclic_run hs call)

/--
After any calls, following what is known about a kind ends where the kind is resolved to. Two kinds are then unified,
such that they are merged and nothing else changes, or they are resolved to different kinds that are determined, and the
state stays as it is.
-/
theorem unification_isUnionFind {calls : List KindCall} {s : State} (hs : runAll .start calls = s)
    (pos : Nat) (k l : GradeKind)
    : (∀ kind, ∃ n, s.IsResolved (s.follow^[n] kind) ∧ s.resolve kind = s.follow^[n] kind) ∧
      (∀ kind s', GradeKind.unify pos k l s = .ok kind s' → s.Merged k l kind s') ∧
      ∀ e s', GradeKind.unify pos k l s = .error e s' ↔
        ((∀ x, s.resolve k ≠ .var x) ∧ (∀ x, s.resolve l ≠ .var x) ∧ s.resolve k ≠ s.resolve l) ∧
        e = .ofCause pos (.gradeKindMismatch (s.resolve k) (s.resolve l)) ∧ s' = s := by
  subst hs
  have hs := isAcyclic_runAll State.isAcyclic_start calls
  exact ⟨hs.exists_iterate, fun _ _ => hs.merged, fun _ _ => GradeKind.unify_eq_error_iff⟩

/--
Two kinds are unified in both orders, and a third one with them by a call that fails later on.
-/
def entangled : List KindCall :=
  [.unifyGradeKinds 0 (.var "a") (.var "b"), .unifyGradeKinds 0 (.var "b") (.var "a"),
    .inferGradeKind 0 (.op .plus (.op .plus (.zero (.var "c")) (.zero (.var "a"))) (.op .plus (.nat 1) (.level .secret)))]

theorem unification_isUnionFind_entangled
    : ∃ s', GradeKind.unify 0 (.var "c") .nat (runAll .start entangled) = .ok .nat s' ∧
        (runAll .start entangled).Merged (.var "c") .nat .nat s' ∧ s'.resolve (.var "a") = .nat := by
  have hunify : GradeKind.unify 0 (.var "c") .nat (runAll .start entangled) =
      .ok .nat ⟨[], [], [], [("b", .nat), ("c", .var "b"), ("a", .var "b")], 0⟩ := by
    rfl
  exact ⟨_, hunify, (unification_isUnionFind rfl 0 (.var "c") .nat).2.1 _ _ hunify, by decide⟩

end KindCall
end GradedModal
