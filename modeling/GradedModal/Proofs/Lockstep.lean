import GradedModal.Proofs.Unifiers

/-!
This module runs two checks side by side, each in a state of its own. The comparison of types without boxes, variables
and indices ends in the same way whatever the states are.
-/

namespace GradedModal

open CheckM

namespace CheckM

variable {α β γ δ : Type} {s t : State}

def Fails (x : CheckM α) (s : State) : Prop :=
  ∃ e s', x s = .error e s'

theorem fails_fail (pos : Nat) (cause : Cause) : Fails (fail pos cause : CheckM α) s :=
  ⟨_, _, rfl⟩

theorem fails_bind {x : CheckM α} {f : α → CheckM β} (h : Fails x s) : Fails (x >>= f) s := by
  obtain ⟨e, s', h⟩ := h
  exact ⟨e, s', bind_of_error h⟩

theorem fails_bind_of_ok {x : CheckM α} {f : α → CheckM β} (h : ∀ a s', x s = .ok a s' → Fails (f a) s')
    : Fails (x >>= f) s := by
  cases hx : x s with
  | ok a s' =>
    obtain ⟨e, s₁, hf⟩ := h a s' hx
    exact ⟨e, s₁, by rw [bind_of_ok hx, hf]⟩
  | error e s' => exact ⟨e, s', bind_of_error hx⟩

theorem Fails.not_ok {x : CheckM α} {a : α} {s' : State} (h : Fails x s) : x s ≠ .ok a s' := by
  obtain ⟨e, s₁, h⟩ := h
  rw [h]
  exact nofun

theorem fails_iff {x : CheckM α} : Fails x s ↔ ¬∃ a s', x s = .ok a s' := by
  constructor
  . rintro h ⟨a, s', hx⟩
    exact h.not_ok hx
  . intro h
    cases hx : x s with
    | ok a s' => exact absurd ⟨a, s', hx⟩ h
    | error e s' => exact ⟨e, s', hx⟩

/--
Two checks succeed together, with related results and without a trace in their states, or they fail together.
-/
def Together (s t : State) (x : CheckM α) (y : CheckM β) (P : α → β → Prop) : Prop :=
  (∃ a b, x s = .ok a s ∧ y t = .ok b t ∧ P a b) ∨ (Fails x s ∧ Fails y t)

section

variable {x : CheckM α} {y : CheckM β} {P : α → β → Prop} {Q : γ → δ → Prop}

theorem together_pure {a : α} {b : β} (h : P a b) : Together s t (pure a) (pure b) P :=
  .inl ⟨a, b, rfl, rfl, h⟩

theorem together_fail {pos pos' : Nat} {cause cause' : Cause}
    : Together s t (fail pos cause) (fail pos' cause') P :=
  .inr ⟨fails_fail _ _, fails_fail _ _⟩

theorem together_bind {f : α → CheckM γ} {g : β → CheckM δ} (h : Together s t x y P)
    (hfg : ∀ a b, P a b → Together s t (f a) (g b) Q) : Together s t (x >>= f) (y >>= g) Q := by
  obtain ⟨a, b, hx, hy, hab⟩ | ⟨hx, hy⟩ := h
  . unfold Together Fails
    rw [bind_of_ok hx, bind_of_ok hy]
    exact hfg a b hab
  . exact .inr ⟨fails_bind hx, fails_bind hy⟩

theorem together_fail_bind {pos pos' : Nat} {cause cause' : Cause} {f : α → CheckM γ} {g : β → CheckM δ}
    : Together s t (fail pos cause >>= f) (fail pos' cause' >>= g) Q :=
  .inr ⟨fails_bind (fails_fail _ _), fails_bind (fails_fail _ _)⟩

theorem Together.imp {P' : α → β → Prop} (h : Together s t x y P) (hP : ∀ a b, x s = .ok a s → P a b → P' a b)
    : Together s t x y P' := by
  obtain ⟨a, b, hx, hy, hab⟩ | hfails := h
  . exact .inl ⟨a, b, hx, hy, hP a b hx hab⟩
  . exact .inr hfails

theorem together_mapError {f g : Error → Error} (h : Together s t x y P)
    : Together s t (mapError f x) (mapError g y) P := by
  unfold Together Fails mapError
  obtain ⟨a, b, hx, hy, hab⟩ | ⟨⟨e, s', hx⟩, e', t', hy⟩ := h
  . rw [hx, hy]
    exact .inl ⟨a, b, rfl, rfl, hab⟩
  . rw [hx, hy]
    exact .inr ⟨⟨_, _, rfl⟩, _, _, rfl⟩

theorem Together.of_ok {a : α} {s' : State} (h : Together s t x y P) (hx : x s = .ok a s')
    : s' = s ∧ ∃ b, y t = .ok b t ∧ P a b := by
  obtain ⟨a', b, hx', hy, hab⟩ | ⟨hfails, _⟩ := h
  . rw [hx'] at hx
    cases hx
    exact ⟨rfl, b, hy, hab⟩
  . exact absurd hx hfails.not_ok

theorem together_attempt (h : Together s t x y P)
    : Together s t (attempt x) (attempt y)
        (fun r r' => (∃ a b, r = .ok a ∧ r' = .ok b ∧ P a b) ∨ (∃ e e', r = .error e ∧ r' = .error e')) := by
  unfold Together Fails attempt
  obtain ⟨a, b, hx, hy, hab⟩ | ⟨⟨e, s', hx⟩, e', t', hy⟩ := h
  . rw [hx, hy]
    exact .inl ⟨_, _, rfl, rfl, .inl ⟨a, b, rfl, rfl, hab⟩⟩
  . rw [hx, hy]
    exact .inl ⟨_, _, rfl, rfl, .inr ⟨e, e', rfl, rfl⟩⟩

end

end CheckM

namespace Ty

/--
A type without boxes, variables and indices.
-/
def isPlain : Ty → Bool
  | .const _ => true
  | .arrow a b => a.isPlain && b.isPlain
  | .app a b => a.isPlain && b.isPlain
  | .pair a b => a.isPlain && b.isPlain
  | .diamond _ ty => ty.isPlain
  | _ => false

theorem toGrade?_of_isPlain {ty : Ty} (h : ty.isPlain = true) : ty.toGrade? = none := by
  cases ty with
  | index n => cases h
  | var x => cases h
  | op o a b => cases h
  | _ => rfl

theorem isPlain_args {ty : Ty} (h : ty.isPlain = true) : ∀ arg ∈ ty.args, arg.isPlain = true := by
  induction ty with
  | arrow a b _ ihb =>
    simp only [isPlain, Bool.and_eq_true] at h
    intro arg harg
    simp only [args, List.mem_cons] at harg
    obtain rfl | harg := harg
    . exact h.1
    . exact ihb h.2 arg harg
  | _ => exact nofun

theorem isPlain_result {ty : Ty} (h : ty.isPlain = true) : ty.result.isPlain = true := by
  induction ty with
  | arrow a b _ ihb =>
    simp only [isPlain, Bool.and_eq_true] at h
    exact ihb h.2
  | _ => exact h

end Ty

namespace Unify

variable {env : Env} {pos : Nat} {s t : State} {left right : Ty}

theorem fails_indices (h : left.isPlain = true) : Fails (indices env pos left right) s := by
  unfold indices
  apply fails_bind_of_ok
  intro k s₁ _
  apply fails_bind_of_ok
  intro k' s₂ _
  rw [Ty.toGrade?_of_isPlain h]
  split
  . contradiction
  . exact fails_fail _ _

def sameForm : Ty → Ty → Bool
  | .const _, .const _ => true
  | .arrow _ _, .arrow _ _ => true
  | .app _ _, .app _ _ => true
  | .pair _ _, .pair _ _ => true
  | .diamond _ _, .diamond _ _ => true
  | _, _ => false

theorem fails_relate (hleft : left.isPlain = true) (hright : right.isPlain = true) (h : sameForm left right = false)
    (depth : Nat) (relation : Relation) : Fails (relate env pos (depth + 1) relation left right) s := by
  unfold relate
  split
  . cases h
  . cases h
  . cases h
  . cases hleft
  . cases h
  . cases h
  . cases hleft
  . cases hleft
  . cases hright
  . exact fails_indices hleft

theorem together_relate (pos pos' : Nat) (hleft : left.isPlain = true) (hright : right.isPlain = true) (depth : Nat)
    (relation relation' : Relation)
    : Together s t (relate env pos depth relation left right) (relate env pos' depth relation' left right)
        (fun u v => u = v ∧ u.subst = []) := by
  induction depth generalizing left right relation relation' with
  | zero =>
    unfold relate
    exact together_fail
  | succ depth ih =>
    by_cases hform : sameForm left right = true
    . have hpair : ∀ {a b a' b' : Ty}, a.isPlain = true ∧ b.isPlain = true → a'.isPlain = true ∧ b'.isPlain = true →
          Together s t (relate.relatePair env pos depth relation a b a' b')
            (relate.relatePair env pos' depth relation' a b a' b') (fun u v => u = v ∧ u.2.2 = []) := by
        intro a b a' b' hab hab'
        unfold relate.relatePair
        apply together_bind (ih hab.1 hab'.1 relation relation')
        rintro first _ ⟨rfl, hfirst⟩
        rw [hfirst, Ty.substitute_nil, Ty.substitute_nil]
        apply together_bind (ih hab.2 hab'.2 relation relation')
        rintro second _ ⟨rfl, hsecond⟩
        rw [hsecond]
        exact together_pure ⟨rfl, rfl⟩
      cases left with
      | const n =>
        cases right with
        | const n' =>
          simp only [relate]
          exact together_pure ⟨rfl, rfl⟩
        | _ => cases hform
      | arrow arg result =>
        cases right with
        | arrow arg' result' =>
          simp only [Ty.isPlain, Bool.and_eq_true] at hleft hright
          simp only [relate]
          apply together_bind (ih hright.1 hleft.1 .le .le)
          rintro args _ ⟨rfl, hargs⟩
          rw [hargs, Ty.substitute_nil, Ty.substitute_nil]
          apply together_bind (ih hleft.2 hright.2 relation relation')
          rintro results _ ⟨rfl, hresults⟩
          rw [hresults]
          exact together_pure ⟨rfl, rfl⟩
        | _ => cases hform
      | app a b =>
        cases right with
        | app a' b' =>
          simp only [Ty.isPlain, Bool.and_eq_true] at hleft hright
          simp only [relate]
          apply together_bind (hpair hleft hright)
          rintro u _ ⟨rfl, hu⟩
          exact together_pure ⟨rfl, hu⟩
        | _ => cases hform
      | pair a b =>
        cases right with
        | pair a' b' =>
          simp only [Ty.isPlain, Bool.and_eq_true] at hleft hright
          simp only [relate]
          apply together_bind (hpair hleft hright)
          rintro u _ ⟨rfl, hu⟩
          exact together_pure ⟨rfl, hu⟩
        | _ => cases hform
      | diamond effects ty =>
        cases right with
        | diamond effects' ty' =>
          simp only [Ty.isPlain] at hleft hright
          simp only [relate]
          apply together_bind (ih hleft hright relation relation')
          rintro inner _ ⟨rfl, hinner⟩
          split
          . exact together_pure ⟨rfl, hinner⟩
          . exact together_fail
        | _ => cases hform
      | _ => cases hleft
    . rw [Bool.not_eq_true] at hform
      exact .inr ⟨fails_relate hleft hright hform _ _, fails_relate hleft hright hform _ _⟩

end Unify

end GradedModal
