import GradedModal.Typing.State

/-!
This module takes successful runs of checking apart: a run of a composed check succeeds if and only if
the runs of its parts do.
-/

namespace GradedModal
namespace CheckM

section

-- The search for values runs in the same way, with another state and other errors.
variable {ε σ α β : Type} {s s' : σ}

theorem bind_eq_ok {x : EStateM ε σ α} {f : α → EStateM ε σ β} {b : β}
    : (x >>= f) s = .ok b s'
        ↔
      ∃ a s₁, x s = .ok a s₁ ∧ f a s₁ = .ok b s' := by
  change EStateM.bind x f s = .ok b s' ↔ _
  unfold EStateM.bind
  cases x s with
  | ok a s₁ =>
    constructor
    . intro h
      exact ⟨a, s₁, rfl, h⟩
    . rintro ⟨_, _, h, hf⟩
      cases h
      exact hf
  | error e s₁ => simp

theorem bind_of_ok {x : EStateM ε σ α} {f : α → EStateM ε σ β} {a : α} (h : x s = .ok a s')
    : (x >>= f) s = f a s' := by
  change EStateM.bind x f s = _
  unfold EStateM.bind
  rw [h]

theorem bind_of_error {x : EStateM ε σ α} {f : α → EStateM ε σ β} {e : ε} (h : x s = .error e s')
    : (x >>= f) s = .error e s' := by
  change EStateM.bind x f s = _
  unfold EStateM.bind
  rw [h]

theorem pure_eq_ok {a b : α} : (pure a : EStateM ε σ α) s = .ok b s' ↔ a = b ∧ s = s' := by
  change EStateM.Result.ok a s = .ok b s' ↔ _
  simp

theorem throw_eq_ok {e : ε} {a : α} : (throw e : EStateM ε σ α) s = .ok a s' ↔ False := by
  change EStateM.Result.error e s = .ok a s' ↔ False
  simp

end

variable {α β : Type} {s s' : State}

theorem map_eq_ok {x : CheckM α} {f : α → β} {b : β}
    : (f <$> x) s = .ok b s'
        ↔
      ∃ a, x s = .ok a s' ∧ f a = b := by
  change EStateM.map f x s = .ok b s' ↔ _
  unfold EStateM.map
  cases x s with
  | ok a s₁ =>
    constructor
    . intro h
      cases h
      exact ⟨a, rfl, rfl⟩
    . rintro ⟨_, h, rfl⟩
      cases h
      rfl
  | error e s₁ => simp

theorem fail_eq_ok {pos : Nat} {cause : Cause} {a : α} : fail pos cause s = .ok a s' ↔ False := by
  unfold fail
  exact throw_eq_ok

theorem get_eq_ok {t : State} : (get : CheckM State) s = .ok t s' ↔ s = t ∧ s = s' := by
  change EStateM.Result.ok s s = .ok t s' ↔ _
  simp

theorem modify_eq_ok {f : State → State} {u : Unit}
    : (modify f : CheckM Unit) s = .ok u s' ↔ f s = s' := by
  change EStateM.Result.ok () (f s) = .ok u s' ↔ _
  simp

theorem attempt_eq_ok {x : CheckM α} {a : α}
    : attempt x s = .ok (.ok a) s' ↔ x s = .ok a s' := by
  unfold attempt
  cases x s <;> simp

theorem eq_of_attempt_error {x : CheckM α} {e : Error} (h : attempt x s = .ok (.error e) s')
    : s' = s := by
  unfold attempt at h
  cases hx : x s with
  | ok a s₁ => simp [hx] at h
  | error e' s₁ =>
    simp only [hx, EStateM.Result.ok.injEq] at h
    exact h.2.symm

theorem mapError_eq_ok {f : Error → Error} {x : CheckM α} {a : α}
    : mapError f x s = .ok a s' ↔ x s = .ok a s' := by
  unfold mapError
  cases x s <;> simp

theorem ite_fail_eq_ok {p : Prop} [Decidable p] {pos : Nat} {cause : Cause} {u : Unit}
    : (if p then fail pos cause else pure () : CheckM Unit) s = .ok u s' ↔ ¬p ∧ s = s' := by
  split
  . next h => simp [fail_eq_ok, h]
  . next h => simp [pure_eq_ok, h]

theorem ite_fail_bind_eq_ok {p : Prop} [Decidable p] {pos : Nat} {cause : Cause} {k : Unit → CheckM α} {a : α}
    : (if p then (fail pos cause >>= k) else k ()) s = .ok a s' ↔ ¬p ∧ k () s = .ok a s' := by
  split
  . next h => simp [bind_eq_ok, fail_eq_ok, h]
  . next h => simp [h]

def yields (x : CheckM α) (s : State) (p : α → State → Bool) : Bool :=
  match x s with
  | .ok a s' => p a s'
  | .error _ _ => false

theorem exists_of_yields {x : CheckM α} {p : α → State → Bool} (h : yields x s p = true)
    : ∃ a s', x s = .ok a s' ∧ p a s' = true := by
  unfold yields at h
  split at h
  . next a s' hx => exact ⟨a, s', hx, h⟩
  . cases h

end CheckM
end GradedModal
