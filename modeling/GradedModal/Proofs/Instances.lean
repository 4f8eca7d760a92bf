import Mathlib
import GradedModal.Proofs.KindedQueries
import GradedModal.Proofs.KindedTypes

/-!
This module says that the instances of an accepted scheme are accepted as types, in whatever state they are made. If no
kind of grades is undetermined then inferring kinds has nothing to learn, and its result depends only on the kinds of
the variables.
-/

namespace GradedModal

open CheckM

def GradeKind.isDetermined : GradeKind → Bool
  | .var _ => false
  | _ => true

def Kind.isDetermined : Kind → Bool
  | .grade k => k.isDetermined
  | .arrow a b => a.isDetermined && b.isDetermined
  | .type | .effect => true

def Grade.isDetermined : Grade → Bool
  | .zero k | .one k => k.isDetermined
  | .op _ g h => g.isDetermined && h.isDetermined
  | .var _ | .nat _ | .float _ | .level _ => true

def Ty.isDetermined : Ty → Bool
  | .const _ | .var _ | .index _ => true
  | .box g a => g.isDetermined && a.isDetermined
  | .diamond _ a => a.isDetermined
  | .arrow a b | .pair a b | .app a b | .op _ a b => a.isDetermined && b.isDetermined

/--
No kind of grades in the scheme is a variable.
-/
def Scheme.isDetermined (scheme : Scheme) : Bool :=
  scheme.vars.all (·.2.isDetermined) && scheme.ty.isDetermined

def State.IsDetermined (s : State) : Prop :=
  ∀ x v, s.lookup? x = some v → v.kind.isDetermined = true

def Env.IsDetermined (env : Env) : Prop :=
  ∀ n k, env.builtins.types.lookup n = some k → k.isDetermined = true

theorem Env.isDetermined_standard {env : Env} (h : env.builtins.types = Builtins.standard.types)
    : env.IsDetermined := by
  have hall : ∀ b ∈ Builtins.standard.types, b.2.isDetermined = true := by
    decide
  intro n k hn
  rw [h] at hn
  exact hall _ (mem_of_lookup hn)

/--
If the first check succeeds in the state `s` then it learns nothing there, and the second check has the same result in
the state `t`.
-/
def CheckM.Mirrors {α : Type} (s t : State) (P : α → Prop) (x y : CheckM α) : Prop :=
  ∀ a s', x s = .ok a s' → P a ∧ s' = s ∧ y t = .ok a t

namespace CheckM

variable {α β : Type} {s t : State} {P : α → Prop} {Q : β → Prop}

theorem mirrors_pure {a : α} (ha : P a) : Mirrors s t P (pure a) (pure a) := by
  intro b s' h
  rw [pure_eq_ok] at h
  obtain ⟨rfl, rfl⟩ := h
  exact ⟨ha, rfl, rfl⟩

theorem mirrors_fail {pos : Nat} {cause : Cause} {y : CheckM α} : Mirrors s t P (fail pos cause) y := by
  intro a s' h
  rw [fail_eq_ok] at h
  exact h.elim

theorem Mirrors.bind {x y : CheckM α} {f g : α → CheckM β} (hx : Mirrors s t P x y)
    (hf : ∀ a, P a → Mirrors s t Q (f a) (g a)) : Mirrors s t Q (x >>= f) (y >>= g) := by
  intro b s' h
  rw [bind_eq_ok] at h
  obtain ⟨a, s₁, ha, h⟩ := h
  obtain ⟨hP, rfl, hy⟩ := hx a s₁ ha
  rw [bind_of_ok hy]
  exact hf a hP b s' h

theorem Mirrors.discard {x y : CheckM α} (hx : Mirrors s t P x y)
    : Mirrors s t (fun _ => True) (discard x) (discard y) := by
  intro _ s' h
  obtain ⟨a, ha⟩ := discard_eq_ok.mp h
  obtain ⟨_, rfl, hy⟩ := hx a s' ha
  exact ⟨trivial, rfl, discard_of_ok hy⟩

theorem mirrors_resolve {k : GradeKind} (hk : k.isDetermined = true)
    : Mirrors s t (fun k => k.isDetermined = true) (resolve k) (resolve k) := by
  have hresolve : ∀ u : State, u.resolve k = k := by
    apply State.resolve_of_ne_var
    rintro name rfl
    cases hk
  intro l s' h
  obtain ⟨rfl, rfl⟩ := resolve_eq_ok.mp h
  rw [hresolve]
  exact ⟨hk, rfl, resolve_eq_ok.mpr ⟨hresolve t, rfl⟩⟩

end CheckM

section

variable {pos pos' : Nat} {s t : State} {env : Env} {subst : Substitution}

theorem CheckM.mirrors_unbound {β : Type} {Q : β → Prop} {x : String} {f : TypeVar → CheckM β} {y : CheckM β}
    (hx : s.lookup? x = none) : Mirrors s t Q (typeVar pos x >>= f) y := by
  intro b s' h
  rw [bind_eq_ok] at h
  obtain ⟨v, _, hv, _⟩ := h
  rw [(lookup?_of_typeVar hv).1] at hx
  cases hx

theorem CheckM.mirrors_typeVar {β : Type} {Q : β → Prop} {x y : String} {v w : TypeVar} {f g : TypeVar → CheckM β}
    (hx : s.lookup? x = some v) (hy : t.lookup? y = some w) (hf : Mirrors s t Q (f v) (g w))
    : Mirrors s t Q (typeVar pos x >>= f) (typeVar pos' y >>= g) := by
  intro b s' h
  rw [bind_of_ok (typeVar_of_lookup? hx)] at h
  rw [bind_of_ok (typeVar_of_lookup? hy)]
  exact hf b s' h

-- Kinds that are determined are not replaced, so only the first branch can be taken.
theorem GradeKind.unify_mirrors {k l : GradeKind} (hk : k.isDetermined = true) (hl : l.isDetermined = true)
    : Mirrors s t (fun k => k.isDetermined = true) (GradeKind.unify pos k l) (GradeKind.unify pos' k l) := by
  unfold GradeKind.unify
  apply (mirrors_resolve hk).bind
  intro k hk
  apply (mirrors_resolve hl).bind
  intro l hl
  split
  . exact mirrors_pure hk
  . split
    . cases hk
    . cases hl
    . exact mirrors_fail

theorem Kind.unify_mirrors {k l : Kind} (hk : k.isDetermined = true) (hl : l.isDetermined = true)
    : Mirrors s t (fun _ => True) (Kind.unify pos k l) (Kind.unify pos' k l) := by
  fun_induction Kind.unify pos k l with
  | case1 k l =>
    unfold Kind.unify
    apply (GradeKind.unify_mirrors hk hl).bind
    intro kind _
    exact mirrors_pure trivial
  | case2 a b a' b' iha ihb =>
    obtain ⟨ha, hb⟩ := Bool.and_eq_true_iff.mp hk
    obtain ⟨ha', hb'⟩ := Bool.and_eq_true_iff.mp hl
    rw [Kind.unify.eq_2]
    apply (iha ha ha').bind
    intro input _
    apply (ihb hb hb').bind
    intro output _
    exact mirrors_pure trivial
  | case3 k hgrade harrow =>
    have hself : Kind.unify pos' k k = pure k := by
      cases k with
      | type | effect => rfl
      | grade k => exact (hgrade k k rfl rfl).elim
      | arrow a b => exact (harrow a b a b rfl rfl).elim
    rw [hself]
    exact mirrors_pure trivial
  | case4 => exact mirrors_fail

theorem Grade.inferKind_mirrors {g : Grade} (hs : s.IsDetermined) (hg : g.isDetermined = true)
    (hsubst : subst.Renames s t)
    : Mirrors s t (fun k => k.isDetermined = true) (g.inferKind pos) ((g.substitute subst).inferKind pos') := by
  induction g with
  | var x =>
    cases hx : s.lookup? x with
    | none => exact mirrors_unbound hx
    | some v =>
      obtain ⟨y, w, hy, hw, hkind⟩ := hsubst x v hx
      have hv := hs x v hx
      unfold Grade.substitute
      rw [hy]
      apply mirrors_typeVar hx hw
      rw [hkind]
      split
      . next k hk =>
        rw [hk] at hv
        exact mirrors_resolve hv
      . exact mirrors_fail
  | nat | float | level => exact mirrors_pure rfl
  | zero k | one k => exact mirrors_resolve hg
  | op o a b iha ihb =>
    obtain ⟨ha, hb⟩ := Bool.and_eq_true_iff.mp hg
    unfold Grade.substitute Grade.inferKind
    apply (iha ha).bind
    intro k hk
    apply (ihb hb).bind
    intro l hl
    exact GradeKind.unify_mirrors hk hl

theorem Ty.inferKind_mirrors {ty : Ty} (henv : env.IsDetermined) (hs : s.IsDetermined) (hty : ty.isDetermined = true)
    (hsubst : subst.Renames s t)
    : Mirrors s t (fun k => k.isDetermined = true) (ty.inferKind env pos)
        ((ty.substitute subst).inferKind env pos') := by
  induction ty with
  | const n =>
    unfold Ty.substitute Ty.inferKind
    cases hn : env.builtins.types.lookup n with
    | none => exact mirrors_fail
    | some k => exact mirrors_pure (henv n k hn)
  | var x =>
    cases hx : s.lookup? x with
    | none => exact mirrors_unbound hx
    | some v =>
      obtain ⟨y, w, hy, hw, hkind⟩ := hsubst x v hx
      unfold Ty.substitute
      rw [hy]
      apply mirrors_typeVar hx hw
      rw [hkind]
      exact mirrors_pure (hs x v hx)
  | index n => exact mirrors_pure rfl
  | op o a b iha ihb =>
    obtain ⟨ha, hb⟩ := Bool.and_eq_true_iff.mp hty
    unfold Ty.substitute Ty.inferKind
    apply (iha ha).bind
    intro left hleft
    apply (ihb hb).bind
    intro right hright
    split
    . apply (GradeKind.unify_mirrors hleft hright).bind
      intro k hk
      exact mirrors_pure hk
    . exact mirrors_fail
    . exact mirrors_fail
  | arrow a b iha ihb | pair a b iha ihb =>
    obtain ⟨ha, hb⟩ := Bool.and_eq_true_iff.mp hty
    unfold Ty.substitute Ty.inferKind
    apply (iha ha).bind
    intro left hleft
    apply (Kind.unify_mirrors rfl hleft).discard.bind
    intro _ _
    apply (ihb hb).bind
    intro right hright
    apply (Kind.unify_mirrors rfl hright).discard.bind
    intro _ _
    exact mirrors_pure rfl
  | box g a ih =>
    obtain ⟨hg, ha⟩ := Bool.and_eq_true_iff.mp hty
    unfold Ty.substitute Ty.inferKind
    apply (Grade.inferKind_mirrors hs hg hsubst).discard.bind
    intro _ _
    apply (ih ha).bind
    intro content hcontent
    apply (Kind.unify_mirrors rfl hcontent).discard.bind
    intro _ _
    exact mirrors_pure rfl
  | diamond effects a ih =>
    unfold Ty.substitute Ty.inferKind
    apply (ih hty).bind
    intro content hcontent
    apply (Kind.unify_mirrors rfl hcontent).discard.bind
    intro _ _
    exact mirrors_pure rfl
  | app a b iha ihb =>
    obtain ⟨ha, hb⟩ := Bool.and_eq_true_iff.mp hty
    unfold Ty.substitute Ty.inferKind
    apply (iha ha).bind
    intro function hfunction
    apply (ihb hb).bind
    intro arg harg
    split
    . obtain ⟨hinput, houtput⟩ := Bool.and_eq_true_iff.mp hfunction
      apply (Kind.unify_mirrors hinput harg).discard.bind
      intro _ _
      exact mirrors_pure houtput
    . exact mirrors_fail

end

theorem CheckM.exists_of_thenReset {α : Type} {x : CheckM α} {a : α} {s s' : State} (h : thenReset x s = .ok a s')
    : ∃ s₁, x s = .ok a s₁ := by
  unfold thenReset at h
  split at h
  . next hx =>
    cases h
    exact ⟨_, hx⟩
  . cases h

namespace Scheme

variable {env : Env} {scheme : Scheme} {pos : Nat}

theorem isDetermined_scope (h : scheme.isDetermined = true) : scheme.scope.IsDetermined := by
  intro x v hx
  have hvars := (Bool.and_eq_true_iff.mp h).1
  exact List.all_eq_true.mp hvars _ (mem_vars_of_lookup?_scope hx)

theorem inferKind_of_checkKind {s : State} (h : scheme.checkKind env pos .start = .ok () s)
    : ∃ s₁, scheme.ty.inferKind env pos scheme.scope = .ok .type s₁ := by
  obtain ⟨s₁, hcheck⟩ := exists_of_thenReset h
  have hscope : bindUniversals scheme.vars .start = .ok () scheme.scope := by
    rw [Definition.bindUniversals_eq]
    unfold scope State.start
    rw [List.append_nil]
  rw [bind_of_ok hscope] at hcheck
  unfold Ty.checkKind at hcheck
  simp only [bind_eq_ok, discard_eq_ok] at hcheck
  obtain ⟨kind, s₁, hkind, _, hunify⟩ := hcheck
  obtain ⟨rfl, _⟩ := Kind.eq_type_of_unify hunify
  exact ⟨s₁, hkind⟩

/--
If a scheme is accepted then so are all its instances, whatever the state is in which its variables are replaced. Only
the kinds of the variables matter, which the new ones have in common with them.
-/
theorem instances_accepted {s₀ : State} (henv : env.builtins.types = Builtins.standard.types)
    (hdistinct : (scheme.vars.map (·.1)).Nodup) (hdetermined : scheme.isDetermined = true)
    (haccepted : scheme.checkKind env pos .start = .ok () s₀) (s : State)
    : ∃ ty s', scheme.instantiate s = .ok ty s' ∧ (∀ pos', ty.inferKind env pos' s' = .ok .type s') ∧
        ∃ subst : Substitution, subst.Renames scheme.scope s' ∧ ty = scheme.ty.substitute subst := by
  obtain ⟨s₁, hkind⟩ := inferKind_of_checkKind haccepted
  obtain ⟨r, s', hrefresh, _⟩ := exists_refresh .instantiated scheme s
  obtain ⟨subst, hsubst, hr⟩ := exists_renames hdistinct hrefresh
  refine ⟨r.2, s', ?_, ?_, subst, hsubst, hr⟩
  . unfold instantiate
    rw [bind_of_ok hrefresh]
    rfl
  . intro pos'
    have henv := Env.isDetermined_standard henv
    have hscope := isDetermined_scope hdetermined
    have hty := (Bool.and_eq_true_iff.mp hdetermined).2
    rw [hr]
    exact (Ty.inferKind_mirrors henv hscope hty hsubst _ _ hkind).2.2

/-- `forall a : Type, n : Nat, l : Level. (List (n + 1) a) [l * 1] -> N n` -/
def boxedLength : Scheme where
  vars := [("a", .type), ("n", .grade .nat), ("l", .grade .level)]
  ty := .arrow (.box (.op .times (.var "l") (.one .level)) (.list (Builtins.succ (.var "n")) (.var "a")))
    (Builtins.number (.var "n"))

-- A name that is made up for the instance is in scope already, with another kind.
theorem instances_accepted_boxedLength
    : (∃ s₀, boxedLength.checkKind ⟨.standard, []⟩ 0 .start = .ok () s₀) ∧
      ∃ ty s', boxedLength.instantiate { State.start with typeVars := [⟨"n.4", .type, .universal⟩], nextFresh := 3 }
          = .ok ty s' ∧
        ∀ pos', ty.inferKind ⟨.standard, []⟩ pos' s' = .ok .type s' := by
  have hrun : yields (boxedLength.checkKind ⟨.standard, []⟩ 0) .start (fun _ _ => true) = true := by
    cbv
  obtain ⟨_, s₀, haccepted, _⟩ := exists_of_yields hrun
  obtain ⟨ty, s', hty, hkind, _⟩ := instances_accepted rfl (by decide) (by decide) haccepted
    { State.start with typeVars := [⟨"n.4", .type, .universal⟩], nextFresh := 3 }
  exact ⟨⟨s₀, haccepted⟩, ty, s', hty, hkind⟩

end Scheme

end GradedModal
